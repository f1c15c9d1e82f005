import ExprLang.Grammar.Sequence
import Mathlib.Tactic

/-!
# Runs on tokens that look alike

Two cursors look alike for some tokens if the tokens ahead of them are related one
by one, up to the token behind those. A parser follows another one if its run on
any cursor, as far as it goes, is repeated by the other on every cursor that looks
alike that far. Parsers built alike from such pairs follow each other. Tokens are
related by equality, when two ways of writing one parser are compared, or by their
words and perhaps their places, when two inputs are.
-/
namespace ExprLang

namespace Token

/-- What a parser may go by: the class of a token and its value, not its place. -/
def word (t : Token) : TokenKind × String := (t.kind, t.value)

/-- Equality of words. -/
def SameWord (t u : Token) : Prop := t.word = u.word

end Token

/-- A relation that every token has to some token, and that keeps words. -/
structure Likeness (W : Token → Token → Prop) : Prop where
  total : ∀ t, ∃ u, W t u
  word : ∀ {t u}, W t u → t.word = u.word

namespace Likeness

theorem eq : Likeness Eq := ⟨fun t => ⟨t, rfl⟩, fun h => congrArg _ h⟩

theorem sameWord : Likeness Token.SameWord := ⟨fun t => ⟨t, rfl⟩, id⟩

variable {W : Token → Token → Prop} (hW : Likeness W) {t u : Token}

include hW

theorem kind (h : W t u) : t.kind = u.kind := congrArg Prod.fst (hW.word h)

theorem value (h : W t u) : t.value = u.value := congrArg Prod.snd (hW.word h)

theorem isEof (h : W t u) : t.isEof = u.isEof := by simp [Token.isEof, hW.kind h]

theorem isMark (h : W t u) (mark : Char) : t.isMark mark = u.isMark mark := by
  simp [Token.isMark, Token.firstChar, hW.kind h, hW.value h]

theorem isWord (h : W t u) (kind : TokenKind) (value : String) :
    t.isWord kind value = u.isWord kind value := by
  simp [Token.isWord, hW.kind h, hW.value h]

end Likeness

namespace Cursor

/-- The cursor behind the first `k` tokens, or at the last mark. -/
def drop (k : ℕ) (c : Cursor) : Cursor := ⟨c.ahead.drop k, c.last⟩

@[simp] theorem drop_zero (c : Cursor) : c.drop 0 = c := rfl

@[simp] theorem drop_one (c : Cursor) : c.drop 1 = c.next := by simp [drop, next]

@[simp] theorem size_drop (k : ℕ) (c : Cursor) : (c.drop k).size = c.size - k := by
  simp [drop, size]

@[simp] theorem drop_drop (j k : ℕ) (c : Cursor) : (c.drop j).drop k = c.drop (j + k) := by
  simp [drop]

/-- Within the tokens ahead, a number of steps is known from where it leads. -/
theorem drop_inj {c : Cursor} {j k : ℕ} (hj : j ≤ c.size) (hk : k ≤ c.size)
    (h : c.drop j = c.drop k) : j = k := by
  have hs := congrArg size h
  simp only [size_drop] at hs
  omega

/-- The tokens ahead of two cursors are related for `k` tokens and the one behind
them, or up to the last marks if these come first. -/
inductive Alike (W : Token → Token → Prop) : ℕ → Cursor → Cursor → Prop
  | last {k : ℕ} {m n : EndMark} (h : W m.token n.token) : Alike W k ⟨[], m⟩ ⟨[], n⟩
  | here {t u : Token} {ts us : List Token} {m n : EndMark} (h : W t u) :
    Alike W 0 ⟨t :: ts, m⟩ ⟨u :: us, n⟩
  | further {k : ℕ} {t u : Token} {ts us : List Token} {m n : EndMark} (h : W t u)
    (hs : Alike W k ⟨ts, m⟩ ⟨us, n⟩) : Alike W (k + 1) ⟨t :: ts, m⟩ ⟨u :: us, n⟩

namespace Alike

variable {W : Token → Token → Prop} {c d : Cursor} {j k : ℕ}

theorem current (h : Alike W k c d) : W c.current d.current := by
  cases h <;> assumption

theorem next (h : Alike W (k + 1) c d) : Alike W k c.next d.next := by
  cases h with
  | last h => exact .last h
  | further h hs => exact hs

theorem drop (h : Alike W (j + k) c d) : Alike W k (c.drop j) (d.drop j) := by
  induction j generalizing c d with
  | zero => simpa using h
  | succ j ih =>
    rw [Nat.add_right_comm] at h
    have hn := ih h.next
    rwa [← drop_one, ← drop_one, drop_drop, drop_drop, Nat.add_comm 1] at hn

theorem mono (h : Alike W k c d) (hjk : j ≤ k) : Alike W j c d := by
  induction h generalizing j with
  | last h => exact .last h
  | here h =>
    obtain rfl := Nat.le_zero.1 hjk
    exact .here h
  | further h hs ih =>
    cases j with
    | zero => exact .here h
    | succ j => exact .further h (ih (Nat.le_of_succ_le_succ hjk))

/-- A cursor looks like the one whose tokens are exchanged for tokens related to them. -/
theorem map {f : Token → Token} (hf : ∀ t, W t (f t)) {m n : EndMark} (h : W m.token n.token)
    (k : ℕ) (ts : List Token) : Alike W k ⟨ts, m⟩ ⟨ts.map f, n⟩ := by
  induction ts generalizing k with
  | nil => exact .last h
  | cons t ts ih =>
    cases k with
    | zero => exact .here (hf t)
    | succ k => exact .further (hf t) (ih k)

theorem refl (k : ℕ) (c : Cursor) : Alike Eq k c c := by
  simpa using map (f := id) (fun _ => rfl) rfl k c.ahead

theorem exists_right (hW : Likeness W) (k : ℕ) (c : Cursor) : ∃ d, Alike W k c d := by
  obtain ⟨f, hf⟩ := Classical.axiomOfChoice hW.total
  let u := f c.last.token
  have hu : W c.last.token u := hf c.last.token
  have hlast : EndMark.token ⟨u.value, u.span⟩ = u := by
    rw [EndMark.token, show TokenKind.eof = u.kind from hW.kind hu]
  exact ⟨_, map hf (hlast ▸ hu) k c.ahead⟩

theorem le_size (h : Alike W k c d) (hk : k ≤ c.size) : k ≤ d.size := by
  induction h with
  | last h => exact hk
  | here h => exact Nat.zero_le _
  | further h hs ih => exact Nat.succ_le_succ (ih (Nat.le_of_succ_le_succ hk))

end Alike

end Cursor

namespace Parser

open Cursor

variable {W : Token → Token → Prop} {α β γ δ : Type}

/-- A run from `c` ends behind some of the tokens ahead, and `q` ends its run there
with a related outcome on all cursors that look like `c` that far. -/
inductive Stops (W : Token → Token → Prop) (R : α → β → Prop) (c : Cursor) (q : Parser β) :
    EStateM.Result Fault Cursor α → Prop
  | ok {a : α} {k : ℕ} (hk : k ≤ c.size)
    (h : ∀ d, Alike W k c d → ∃ b, q d = .ok b (d.drop k) ∧ R a b) :
    Stops W R c q (.ok a (c.drop k))
  | error {fault : Fault} {k : ℕ} (hk : k ≤ c.size)
    (h : ∀ d, Alike W k c d → ∃ fault', q d = .error fault' (d.drop k) ∧
      fault.complaint = fault'.complaint ∧ W fault.token fault'.token) :
    Stops W R c q (.error fault (c.drop k))

/-- `q` repeats the runs of `p` that begin with fewer than `n` tokens ahead. -/
def Follows (W : Token → Token → Prop) (n : ℕ) (R : α → β → Prop) (p : Parser α)
    (q : Parser β) : Prop :=
  ∀ c, c.size < n → Stops W R c q (p c)

/-- A successful run leaves fewer tokens ahead. -/
def Takes (p : Parser α) : Prop := ∀ ⦃c a c'⦄, p c = .ok a c' → c'.size < c.size

namespace Follows

variable {n : ℕ} {R : α → β → Prop} {S : γ → δ → Prop} {p : Parser α} {q : Parser β}

theorem mono {m : ℕ} (h : Follows W n R p q) (hmn : m ≤ n) : Follows W m R p q :=
  fun c hc => h c (hc.trans_le hmn)

/-- What a successful run leaves ahead, and how it is repeated. -/
theorem ok (h : Follows W n R p q) {c c' : Cursor} {a : α} (hc : c.size < n)
    (hp : p c = .ok a c') : ∃ k ≤ c.size, c' = c.drop k ∧
      ∀ d, Alike W k c d → ∃ b, q d = .ok b (d.drop k) ∧ R a b := by
  have hs := h c hc
  rw [hp] at hs
  cases hs with
  | ok hk hd => exact ⟨_, hk, rfl, hd⟩

theorem error (h : Follows W n R p q) {c c' : Cursor} {fault : Fault} (hc : c.size < n)
    (hp : p c = .error fault c') : ∃ k ≤ c.size, c' = c.drop k ∧
      ∀ d, Alike W k c d → ∃ fault', q d = .error fault' (d.drop k) ∧
        fault.complaint = fault'.complaint ∧ W fault.token fault'.token := by
  have hs := h c hc
  rw [hp] at hs
  cases hs with
  | error hk hd => exact ⟨_, hk, rfl, hd⟩

theorem size_le (h : Follows W n R p q) {c c' : Cursor} {a : α} (hc : c.size < n)
    (hp : p c = .ok a c') : c'.size ≤ c.size := by
  obtain ⟨k, _, rfl, _⟩ := h.ok hc hp
  simp

/-- The rest of a run may be compared from the very cursors that its first part
reaches. -/
theorem bind_of (hW : Likeness W) (hp : Follows W n R p q) {f : α → Parser γ}
    {g : β → Parser δ} (hf : ∀ c a c' b, c.size < n → p c = .ok a c' → R a b →
      Follows W (c'.size + 1) S (f a) (g b)) : Follows W n S (p >>= f) (q >>= g) := by
  intro c hc
  rw [bind_apply]
  cases hr : p c with
  | error fault c' =>
    obtain ⟨k, hk, rfl, hd⟩ := hp.error hc hr
    refine .error hk fun d hcd => ?_
    obtain ⟨fault', hq, hf'⟩ := hd d hcd
    exact ⟨fault', by rw [bind_apply, hq], hf'⟩
  | ok a c' =>
    obtain ⟨k, hk, rfl, hd⟩ := hp.ok hc hr
    obtain ⟨d, hcd⟩ := Alike.exists_right hW k c
    obtain ⟨b, -, hab⟩ := hd d hcd
    have hb := hf c a _ b hc hr hab
    simp only
    cases hs : f a (c.drop k) with
    | error fault c' =>
      obtain ⟨j, hj, rfl, -⟩ := hb.error (Nat.lt_succ_self _) hs
      rw [drop_drop]
      rw [size_drop] at hj
      refine .error (by omega) fun d hcd => ?_
      obtain ⟨b', hq, hab'⟩ := hd d (hcd.mono (Nat.le_add_right k j))
      obtain ⟨i, hi, hij, hd'⟩ := (hf c a _ b' hc hr hab').error (Nat.lt_succ_self _) hs
      obtain rfl := drop_inj (by simpa using hj) hi hij
      obtain ⟨fault', hq', hf'⟩ := hd' (d.drop k) hcd.drop
      exact ⟨fault', by rw [bind_apply, hq, ← drop_drop]; exact hq', hf'⟩
    | ok x c' =>
      obtain ⟨j, hj, rfl, -⟩ := hb.ok (Nat.lt_succ_self _) hs
      rw [drop_drop]
      rw [size_drop] at hj
      refine .ok (by omega) fun d hcd => ?_
      obtain ⟨b', hq, hab'⟩ := hd d (hcd.mono (Nat.le_add_right k j))
      obtain ⟨i, hi, hij, hd'⟩ := (hf c a _ b' hc hr hab').ok (Nat.lt_succ_self _) hs
      obtain rfl := drop_inj (by simpa using hj) hi hij
      obtain ⟨y, hq', hxy⟩ := hd' (d.drop k) hcd.drop
      exact ⟨y, by rw [bind_apply, hq, ← drop_drop]; exact hq', hxy⟩

theorem bind (hW : Likeness W) (hp : Follows W n R p q) {f : α → Parser γ}
    {g : β → Parser δ} (hf : ∀ a b, R a b → Follows W n S (f a) (g b)) :
    Follows W n S (p >>= f) (q >>= g) :=
  hp.bind_of hW fun _ a _ b hc hr hab =>
    (hf a b hab).mono (Nat.succ_le_of_lt ((hp.size_le hc hr).trans_lt hc))

/-- Behind a parser that takes a token, there are fewer tokens ahead. -/
theorem bind_takes (hW : Likeness W) (hp : Follows W (n + 1) R p q) (ht : Takes p)
    {f : α → Parser γ} {g : β → Parser δ} (hf : ∀ a b, R a b → Follows W n S (f a) (g b)) :
    Follows W (n + 1) S (p >>= f) (q >>= g) :=
  hp.bind_of hW fun _ a _ b hc hr hab =>
    (hf a b hab).mono (Nat.succ_le_of_lt ((ht hr).trans_le (Nat.le_of_lt_succ hc)))

theorem map (hW : Likeness W) (hp : Follows W n R p q) {f : α → γ} {g : β → δ}
    (hf : ∀ a b, R a b → S (f a) (g b)) : Follows W n S (f <$> p) (g <$> q) := by
  rw [map_eq_pure_bind, map_eq_pure_bind]
  refine hp.bind hW fun a b hab c _ => ?_
  exact .ok (k := 0) (Nat.zero_le _) fun d _ => ⟨g b, rfl, hf a b hab⟩

/-- Two runs may be compared through parsers that agree with them at their cursors. -/
theorem of_apply (h : ∀ c d, c.size < n → ∃ p' q',
    Follows W (c.size + 1) R p' q' ∧ p' c = p c ∧ q' d = q d) : Follows W n R p q := by
  intro c hc
  cases hr : p c with
  | ok a c' =>
    obtain ⟨p', q', hf, hp, -⟩ := h c c hc
    obtain ⟨k, hk, rfl, -⟩ := hf.ok c.size.lt_succ_self (hp.trans hr)
    refine .ok hk fun d hcd => ?_
    obtain ⟨p', q', hf, hp, hq⟩ := h c d hc
    obtain ⟨j, hj, hkj, hd⟩ := hf.ok c.size.lt_succ_self (hp.trans hr)
    obtain rfl := drop_inj hk hj hkj
    exact hq ▸ hd d hcd
  | error fault c' =>
    obtain ⟨p', q', hf, hp, -⟩ := h c c hc
    obtain ⟨k, hk, rfl, -⟩ := hf.error c.size.lt_succ_self (hp.trans hr)
    refine .error hk fun d hcd => ?_
    obtain ⟨p', q', hf, hp, hq⟩ := h c d hc
    obtain ⟨j, hj, hkj, hd⟩ := hf.error c.size.lt_succ_self (hp.trans hr)
    obtain rfl := drop_inj hk hj hkj
    exact hq ▸ hd d hcd

/-- Parsers that follow each other on the same tokens agree. -/
theorem apply_eq {p q : Parser α} (h : Follows Eq n Eq p q) {c : Cursor} (hc : c.size < n) :
    p c = q c := by
  cases hr : p c with
  | ok a c' =>
    obtain ⟨k, _, rfl, hd⟩ := h.ok hc hr
    obtain ⟨b, hq, rfl⟩ := hd c (.refl k c)
    exact hq.symm
  | error fault c' =>
    obtain ⟨k, _, rfl, hd⟩ := h.error hc hr
    obtain ⟨fault', hq, hf, ht⟩ := hd c (.refl k c)
    obtain rfl : fault = fault' := by cases fault; cases fault'; simp_all
    exact hq.symm

end Follows

section Primitives

variable {n : ℕ} {R : α → β → Prop}

theorem follows_pure {a : α} {b : β} (h : R a b) : Follows W n R (pure a) (pure b) :=
  fun _ _ => .ok (k := 0) (Nat.zero_le _) fun _ _ => ⟨b, rfl, h⟩

theorem follows_current : Follows W n W current current :=
  fun _ _ => .ok (k := 0) (Nat.zero_le _) fun _ hd => ⟨_, rfl, hd.current⟩

theorem follows_atEnd (hW : Likeness W) : Follows W n Eq atEnd atEnd :=
  fun _ _ => .ok (k := 0) (Nat.zero_le _) fun _ hd => ⟨_, rfl, hW.isEof hd.current⟩

theorem follows_fail (complaint : Complaint) : Follows W n R (fail complaint) (fail complaint) :=
  fun _ _ => .error (k := 0) (Nat.zero_le _) fun _ hd => ⟨_, rfl, rfl, hd.current⟩

theorem follows_failAt {t u : Token} (h : W t u) (complaint : Complaint) :
    Follows W n R (failAt t complaint) (failAt u complaint) :=
  fun _ _ => .error (k := 0) (Nat.zero_le _) fun _ _ => ⟨_, rfl, rfl, h⟩

/-- Nothing is taken at the last mark, and no cursor before it looks like that. -/
theorem follows_advance : Follows W n W advance advance := by
  rintro ⟨_ | ⟨t, ts⟩, m⟩ _
  · refine .ok (k := 0) (Nat.zero_le _) fun d hd => ⟨_, ?_, hd.current⟩
    cases hd
    rfl
  · refine .ok (k := 1) (by simp [size]) fun d hd => ⟨_, ?_, hd.current⟩
    rw [drop_one, advance]

theorem expect_eq (expected : Token → Bool) (complaint : Complaint) :
    expect expected complaint =
      current >>= fun t => if expected t then advance else fail complaint := by
  funext c
  rw [bind_apply]
  simp only [expect, current]
  split_ifs <;> rfl

theorem follows_expect (hW : Likeness W) {expected : Token → Bool}
    (he : ∀ t u, W t u → expected t = expected u) (complaint : Complaint) :
    Follows W n W (expect expected complaint) (expect expected complaint) := by
  rw [expect_eq]
  refine follows_current.bind hW fun t u htu => ?_
  rw [he t u htu]
  split_ifs
  · exact follows_advance
  · exact follows_fail complaint

end Primitives

section Words

variable (hW : Likeness W) {n : ℕ}

include hW

theorem follows_expectMark (mark : Char) : Follows W n Eq (expectMark mark) (expectMark mark) :=
  (follows_expect hW (fun _ _ h => hW.isMark h mark) _).bind hW fun _ _ _ => follows_pure rfl

theorem follows_expectKeyword (word : String) :
    Follows W n Eq (expectKeyword word) (expectKeyword word) :=
  (follows_expect hW (fun _ _ h => hW.isWord h .keyword word) _).bind hW
    fun _ _ _ => follows_pure rfl

theorem follows_expectOperator (operator : String) :
    Follows W n Eq (expectOperator operator) (expectOperator operator) :=
  (follows_expect hW (fun _ _ h => hW.isWord h .operator operator) _).bind hW
    fun _ _ _ => follows_pure rfl

theorem follows_expectName (kind : NameKind) :
    Follows W n Eq (expectName kind) (expectName kind) :=
  (follows_expect hW (fun _ _ h => by rw [hW.kind h]) _).bind hW
    fun _ _ h => follows_pure (hW.value h)

theorem follows_required {p q : Parser (Option α)} (hp : Follows W n Eq p q) :
    Follows W n Eq (required p) (required q) := by
  apply hp.bind hW
  rintro o _ rfl
  cases o with
  | none => exact follows_fail _
  | some a => exact follows_pure rfl

end Words

end Parser

end ExprLang
