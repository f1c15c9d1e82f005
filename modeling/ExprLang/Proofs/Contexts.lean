import ExprLang.Proofs.Reading

/-!
# Contexts

An expression is read the same before any two contexts that do not go on with it. The
tokens in front of a context are pushed onto it. Where a reading stops, all that it has
seen of the context is that no operator, no argument list and no second branch follows.
-/
namespace ExprLang

namespace Cursor

variable {c t u : Cursor} {ts us : List Token}

/-- The cursor with more tokens in front of it. -/
def push (ts : List Token) (c : Cursor) : Cursor := ⟨ts ++ c.ahead, c.last⟩

@[simp] theorem push_nil (c : Cursor) : push [] c = c := rfl

@[simp] theorem current_push_cons (x : Token) (ts : List Token) (c : Cursor) :
    (push (x :: ts) c).current = x := rfl

@[simp] theorem next_push_cons (x : Token) (ts : List Token) (c : Cursor) :
    (push (x :: ts) c).next = push ts c := rfl

@[simp] theorem size_push (ts : List Token) (c : Cursor) :
    (push ts c).size = ts.length + c.size := by
  simp [push, size]

@[simp] theorem push_push (ts us : List Token) (c : Cursor) :
    push ts (push us c) = push (ts ++ us) c := by
  simp [push]

@[simp] theorem push_inj : push ts c = push us c ↔ ts = us := by
  simp [push]

@[simp] theorem push_eq_self : push ts c = c ↔ ts = [] := by
  rw [← push_inj (c := c), push_nil]

/-- Before the last mark there is a token in front of what comes next. -/
theorem exists_eq_push (hc : 0 < c.size) (h : c.next = push ts t) :
    ∃ x, c = push (x :: ts) t := by
  obtain ⟨_ | ⟨x, xs⟩, last⟩ := c
  · simp [size] at hc
  · simp only [next_cons, push, mk.injEq] at h
    exact ⟨x, by simp [push, h]⟩

theorem exists_eq_push_of_kind (hk : c.current.kind ≠ .eof) (h : c.next = push ts t) :
    ∃ x, c = push (x :: ts) t :=
  exists_eq_push (Nat.zero_lt_of_lt (size_next_lt_of_kind hk)) h

theorem exists_eq_push_of_isMark {m : Char} (hm : c.current.isMark m = true)
    (h : c.next = push ts t) : ∃ x, c = push (x :: ts) t :=
  exists_eq_push (Nat.zero_lt_of_lt (size_next_lt_of_isMark hm)) h

theorem exists_eq_push_of_isWord {word : String} (hk : c.current.isWord .keyword word = true)
    (h : c.next = push ts t) : ∃ x, c = push (x :: ts) t :=
  exists_eq_push (Nat.zero_lt_of_lt (size_next_lt_of_isWord hk)) h

/-- No expression goes on with the current token. -/
structure Ends (c : Cursor) : Prop where
  kind : c.current.kind ≠ .operator
  isMark : c.current.isMark '(' = false
  isWord : c.current.isWord .keyword "else" = false

namespace Ends

theorem of_isEof (h : c.current.isEof = true) : c.Ends := by
  have hk : c.current.kind = .eof := by simpa [Token.isEof] using h
  constructor <;> simp [hk, Token.isMark, Token.isWord]

theorem of_isMark {m : Char} (h : c.current.isMark m = true) (hm : m ≠ '(') : c.Ends := by
  obtain ⟨hk, hf⟩ := Token.isMark_iff.1 h
  constructor <;> simp [hk, hf, hm, Token.isMark, Token.isWord]

variable (hu : u.Ends)

include hu

theorem kind_push (h : (push ts t).current.kind ≠ .operator) :
    (push ts u).current.kind ≠ .operator := by
  cases ts with
  | nil => exact hu.kind
  | cons x ts => exact h

theorem isMark_push (h : (push ts t).current.isMark '(' = false) :
    (push ts u).current.isMark '(' = false := by
  cases ts with
  | nil => exact hu.isMark
  | cons x ts => exact h

theorem isWord_push (h : (push ts t).current.isWord .keyword "else" = false) :
    (push ts u).current.isWord .keyword "else" = false := by
  cases ts with
  | nil => exact hu.isWord
  | cons x ts => exact h

end Ends

/-- Cursors in front of two contexts look alike up to the last token in front of these. -/
theorem alike_push (ts : List Token) (x : Token) (t u : Cursor) :
    Alike Eq ts.length (push (ts ++ [x]) t) (push (ts ++ [x]) u) := by
  induction ts with
  | nil => exact .here rfl
  | cons y ts ih => exact .further rfl ih

theorem drop_push (ts us : List Token) (c : Cursor) :
    (push (ts ++ us) c).drop ts.length = push us c := by
  simp [push, drop]

end Cursor

open Cursor ExprLang.Parser

section Lists

variable {α : Type} {element : Parser α} {opening close separator : Char} {as : List α}
  {c t : Cursor} {ts' : List Token}

/-- A list is read up to its closing mark and no further. -/
theorem delimited_exchange (he : ∀ n, Follows Eq n Eq element element) (u : Cursor)
    (h : delimited opening close separator element c = .ok as (push ts' t)) :
    ∃ x ts, c = push (x :: ts) t ∧
      delimited opening close separator element (push (x :: ts) u) = .ok as (push ts' u) := by
  obtain ⟨hopen, c₁, hel, hclose, hnext⟩ := delimited_eq_ok.1 h
  obtain ⟨y, rfl⟩ := exists_eq_push_of_isMark hclose hnext
  have hf := fun n => follows_elements (n := n) close separator .eq (he n) he
  obtain ⟨k, hk, hdrop, hd⟩ := (hf _).ok c.next.size.lt_succ_self hel
  -- The tokens up to the closing mark are those of the elements.
  obtain ⟨ts, hstart, rfl⟩ : ∃ ts, c.next = push (ts ++ y :: ts') t ∧ ts.length = k := by
    refine ⟨c.next.ahead.take k, ?_, by simpa [size] using hk⟩
    obtain ⟨ahead, last⟩ := c
    simp only [push, drop, next, mk.injEq] at hdrop ⊢
    refine ⟨?_, hdrop.2.symm⟩
    rw [List.append_assoc, hdrop.1, List.take_append_drop]
  have hcat : ∀ d : Cursor, push (ts ++ y :: ts') d = push (ts ++ [y]) (push ts' d) :=
    fun d => by simp [push]
  obtain ⟨_, hel', rfl⟩ := hd (push (ts ++ y :: ts') u) <| by
    rw [hstart, hcat, hcat]
    exact alike_push ..
  rw [drop_push] at hel'
  obtain ⟨x, rfl⟩ := exists_eq_push_of_isMark hopen hstart
  exact ⟨x, ts ++ y :: ts', rfl, delimited_eq_ok.2 ⟨hopen, _, hel', hclose, rfl⟩⟩

end Lists

/-- What comes before the body of a definition is read in front of it. -/
theorem ReadsParameters.exchange {params : List Parameter} {c t : Cursor} {x : Token}
    {ts' : List Token} (h : ReadsParameters params c.next.next (push (x :: ts') t))
    (hk : c.current.isWord .keyword "def" = true) (u : Cursor) :
    ∃ z y ts, c = push (z :: y :: ts) t ∧
      ReadsParameters params (push ts u) (push (x :: ts') u) := by
  obtain ⟨w, ts, hn₂, hps⟩ : ∃ w ts, c.next.next = push (w :: ts) t ∧
      ReadsParameters params (push (w :: ts) u) (push (x :: ts') u) := by
    generalize c.next.next = d at h
    cases h with
    | given hm h =>
      obtain ⟨w, ts, rfl, h'⟩ := delimited_exchange (fun _ => Rule.follows_parameter .eq) u h
      exact ⟨w, ts, rfl, .given hm h'⟩
    | omitted hm => exact ⟨x, ts', rfl, .omitted hm⟩
  have hsize : 0 < c.next.size := by
    have := congrArg size hn₂
    simp only [size_next, size_push, List.length_cons] at this ⊢
    omega
  obtain ⟨y, hn₁⟩ := exists_eq_push hsize hn₂
  obtain ⟨z, rfl⟩ := exists_eq_push_of_isWord hk hn₁
  exact ⟨z, y, w :: ts, rfl, hps⟩

namespace Phrase

/-- A list goes on up to what comes after it. -/
def IsOpen : Phrase → Prop
  | elements .. | items .. | statements _ => True
  | _ => False

end Phrase

theorem Reads.size_lt {o : Option Expr} {c c' : Cursor} (h : Reads (.expression o) c c') :
    c'.size < c.size := takes_expression h.run

/-- An expression has a first token. -/
theorem Reads.exists_cons {o : Option Expr} {t : Cursor} {ts ts' : List Token}
    (h : Reads (.expression o) (push ts t) (push ts' t)) : ∃ x xs, ts = x :: xs := by
  have hlt := h.size_lt
  cases ts with
  | nil => simp at hlt
  | cons x xs => exact ⟨x, xs, rfl⟩

/-- A phrase in front of one context is read in front of another one. If the phrase is a
list, there has to be a token behind it. -/
theorem Reads.exchange {φ : Phrase} {c c' t u : Cursor} {ts' : List Token} (h : Reads φ c c')
    (ht : t.current.kind ≠ .operator) (hu : u.Ends) (hc' : c' = push ts' t)
    (hlist : φ.IsOpen → ts' ≠ []) :
    ∃ ts, c = push ts t ∧ Reads φ (push ts u) (push ts' u) := by
  -- From where a part ends back to where it begins, and from there to the part before it.
  induction h generalizing ts' with
  | external hk hn hps =>
    subst hc'
    obtain ⟨x, ts, hn₂, hps'⟩ := delimited_exchange (fun _ => Rule.follows_parameter .eq) u hps
    obtain ⟨y, hn₁⟩ := exists_eq_push_of_kind (by simp [hn]) hn₂
    obtain ⟨z, rfl⟩ := exists_eq_push_of_isWord hk hn₁
    exact ⟨_, rfl, .external (c := push (z :: y :: x :: ts) u) hk hn hps'⟩
  | function hk hps hb ih =>
    obtain ⟨_, rfl, hb'⟩ := ih hc' nofun
    obtain ⟨x, ts₁, rfl⟩ := Reads.exists_cons (hc' ▸ hb)
    obtain ⟨z, y, ts, rfl, hps'⟩ := hps.exchange hk u
    exact ⟨_, rfl, .function (c := push (z :: y :: ts) u) hk hps' hb'⟩
  | bodiless hk hps hb ih =>
    obtain ⟨_, rfl, hb'⟩ := ih hc' nofun
    obtain ⟨x, ts₁, rfl⟩ := Reads.exists_cons (hc' ▸ hb)
    obtain ⟨z, y, ts, rfl, hps'⟩ := hps.exchange hk u
    exact ⟨_, rfl, .bodiless (c := push (z :: y :: ts) u) hk hps' hb'⟩
  | ifThen hk hc hthen helse ihc iht =>
    obtain ⟨ts₁, rfl, hthen'⟩ := iht hc' nofun
    obtain ⟨ts, hn, hc''⟩ := ihc rfl nofun
    obtain ⟨x, rfl⟩ := exists_eq_push_of_isWord hk hn
    subst hc'
    exact ⟨_, rfl, .ifThen (c := push (x :: ts) u) hk hc'' hthen' (hu.isWord_push helse)⟩
  | ifThenElse hk hc hthen helse he ihc iht ihe =>
    obtain ⟨ts₂, hn, he'⟩ := ihe hc' nofun
    obtain ⟨y, rfl⟩ := exists_eq_push_of_isWord helse hn
    obtain ⟨ts₁, rfl, hthen'⟩ := iht rfl nofun
    obtain ⟨ts, hn, hc''⟩ := ihc rfl nofun
    obtain ⟨x, rfl⟩ := exists_eq_push_of_isWord hk hn
    exact ⟨_, rfl, .ifThenElse (c := push (x :: ts) u) hk hc'' hthen' helse he'⟩
  | ifThenAbsent hk hc hthen helse he ihc iht ihe =>
    obtain ⟨ts₂, hn, he'⟩ := ihe hc' nofun
    obtain ⟨y, rfl⟩ := exists_eq_push_of_isWord helse hn
    obtain ⟨ts₁, rfl, hthen'⟩ := iht rfl nofun
    obtain ⟨ts, hn, hc''⟩ := ihc rfl nofun
    obtain ⟨x, rfl⟩ := exists_eq_push_of_isWord hk hn
    exact ⟨_, rfl, .ifThenAbsent (c := push (x :: ts) u) hk hc'' hthen' helse he'⟩
  | closure hk hps hb ih =>
    obtain ⟨ts₁, rfl, hb'⟩ := ih hc' nofun
    obtain ⟨x, ts, hn, hps'⟩ := delimited_exchange (fun _ => follows_expectName .eq .variable) u hps
    obtain ⟨y, rfl⟩ := exists_eq_push_of_isWord hk hn
    exact ⟨_, rfl, .closure (c := push (y :: x :: ts) u) hk hps' hb'⟩
  | boolean hk =>
    obtain ⟨x, rfl⟩ := hk.elim (exists_eq_push_of_isWord · hc') (exists_eq_push_of_isWord · hc')
    exact ⟨_, rfl, .boolean (c := push (x :: ts') u) hk⟩
  | grouping hopen _ hclose ih =>
    obtain ⟨y, rfl⟩ := exists_eq_push_of_isMark hclose hc'
    obtain ⟨ts, hn, h'⟩ := ih rfl nofun
    obtain ⟨x, rfl⟩ := exists_eq_push_of_isMark hopen hn
    exact ⟨_, rfl, .grouping (c := push (x :: ts) u) hopen h' hclose⟩
  | braces _ ih =>
    obtain ⟨ts, rfl, h'⟩ := ih hc' nofun
    exact ⟨ts, rfl, .braces h'⟩
  | @terminal c _ h =>
    have hk : c.current.kind ≠ .eof := by
      rcases Rule.terminalValue_eq_ok h with hk | hk | hk | hk <;> simp [hk]
    obtain ⟨x, rfl⟩ := exists_eq_push_of_kind hk hc'
    exact ⟨_, rfl, .terminal (c := push (x :: ts') u) h⟩
  | block hopen _ hclose ih =>
    obtain ⟨y, rfl⟩ := exists_eq_push_of_isMark hclose hc'
    obtain ⟨ts, hn, h'⟩ := ih rfl fun _ => List.cons_ne_nil y ts'
    obtain ⟨x, rfl⟩ := exists_eq_push_of_isMark hopen hn
    exact ⟨_, rfl, .block (c := push (x :: ts) u) hopen h' hclose⟩
  | uncalled hm => exact ⟨ts', hc', .uncalled (hu.isMark_push (hc' ▸ hm))⟩
  | call hopen _ hclose ih =>
    obtain ⟨y, rfl⟩ := exists_eq_push_of_isMark hclose hc'
    obtain ⟨ts, hn, h'⟩ := ih rfl fun _ => List.cons_ne_nil y ts'
    obtain ⟨x, rfl⟩ := exists_eq_push_of_isMark hopen hn
    exact ⟨_, rfl, .call (c := push (x :: ts) u) hopen h' hclose⟩
  | atom _ _ ihu ihc =>
    obtain ⟨ts₁, rfl, hc''⟩ := ihc hc' nofun
    obtain ⟨ts, rfl, hu'⟩ := ihu rfl nofun
    exact ⟨ts, rfl, .atom hu' hc''⟩
  | absentAtom _ hm ih =>
    obtain ⟨ts, rfl, h'⟩ := ih hc' nofun
    exact ⟨ts, rfl, .absentAtom h' (hu.isMark_push (hc' ▸ hm))⟩
  | noOperator hk => exact ⟨ts', hc', .noOperator (hu.kind_push (hc' ▸ hk))⟩
  | weakOperator hk hp hs =>
    subst hc'
    cases ts' with
    | nil => exact absurd hk ht
    | cons x ts' => exact ⟨x :: ts', rfl, .weakOperator (c := push (x :: ts') u) hk hp hs⟩
  | link hk hp hs _ _ ihe ihl =>
    obtain ⟨ts₁, rfl, hls'⟩ := ihl hc' nofun
    obtain ⟨ts, hn, he'⟩ := ihe rfl nofun
    obtain ⟨x, rfl⟩ := exists_eq_push_of_kind (by simp [hk]) hn
    exact ⟨_, rfl, .link (c := push (x :: ts) u) hk hp hs he' hls'⟩
  | expression _ _ _ iha ihl ihc =>
    obtain ⟨ts₂, rfl, hc''⟩ := ihc hc' nofun
    obtain ⟨ts₁, rfl, hls'⟩ := ihl rfl nofun
    obtain ⟨ts, rfl, ha'⟩ := iha rfl nofun
    exact ⟨ts, rfl, .expression ha' hls' hc''⟩
  | absent _ hk hm ih =>
    obtain ⟨ts, rfl, h'⟩ := ih hc' nofun
    subst hc'
    exact ⟨ts, rfl, .absent h' (hu.kind_push hk) (hu.isMark_push hm)⟩
  | noElements hclose =>
    subst hc'
    obtain ⟨x, ts, rfl⟩ := List.exists_cons_of_ne_nil (hlist trivial)
    exact ⟨_, rfl, .noElements (c := push (x :: ts) u) hclose⟩
  | elements hclose ho _ iho ihos =>
    obtain ⟨ts₁, rfl, hos'⟩ := ihos hc' fun _ => hlist trivial
    obtain ⟨ts, rfl, ho'⟩ := iho rfl nofun
    obtain ⟨x, ts, rfl⟩ := ho.exists_cons
    exact ⟨_, rfl, .elements (c := push (x :: ts) u) hclose ho' hos'⟩
  | noItems hclose =>
    subst hc'
    obtain ⟨x, ts, rfl⟩ := List.exists_cons_of_ne_nil (hlist trivial)
    exact ⟨_, rfl, .noItems (c := push (x :: ts) u) hclose⟩
  | trailing hclose hsep hend =>
    obtain ⟨y, ts, rfl⟩ := List.exists_cons_of_ne_nil (hlist trivial)
    obtain ⟨x, rfl⟩ := exists_eq_push_of_isMark hsep hc'
    exact ⟨_, rfl, .trailing (c := push (x :: y :: ts) u) hclose hsep hend⟩
  | items hclose hsep hend ho _ iho ihos =>
    obtain ⟨ts₁, rfl, hos'⟩ := ihos hc' fun _ => hlist trivial
    obtain ⟨ts, hn, ho'⟩ := iho rfl nofun
    obtain ⟨y, ts, rfl⟩ := Reads.exists_cons (hn ▸ ho)
    obtain ⟨x, rfl⟩ := exists_eq_push_of_isMark hsep hn
    exact ⟨_, rfl, .items (c := push (x :: y :: ts) u) hclose hsep hend ho' hos'⟩
  | noStatements hend =>
    subst hc'
    obtain ⟨x, ts, rfl⟩ := List.exists_cons_of_ne_nil (hlist trivial)
    exact ⟨_, rfl, .noStatements (c := push (x :: ts) u) hend⟩
  | lastStatement hend ho hend' ih =>
    obtain ⟨ts, rfl, ho'⟩ := ih hc' nofun
    subst hc'
    obtain ⟨x, ts, rfl⟩ := ho.exists_cons
    obtain ⟨y, ts', rfl⟩ := List.exists_cons_of_ne_nil (hlist trivial)
    have hlast : (push (y :: ts') u).atEnd = true := hend'
    exact ⟨_, rfl, .lastStatement (c := push (x :: ts) u) hend ho' hlast⟩
  | statements hend ho hsep _ iho ihos =>
    obtain ⟨ts₁, hn, hos'⟩ := ihos hc' fun _ => hlist trivial
    obtain ⟨y, rfl⟩ := exists_eq_push_of_isMark hsep hn
    obtain ⟨ts, rfl, ho'⟩ := iho rfl nofun
    obtain ⟨x, ts, rfl⟩ := ho.exists_cons
    have hmark : (push (y :: ts₁) u).current.isMark ';' = true := hsep
    exact ⟨_, rfl, .statements (c := push (x :: ts) u) hend ho' hmark hos'⟩

end ExprLang
