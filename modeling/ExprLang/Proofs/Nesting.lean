import ExprLang.Proofs.Blocks
import ExprLang.Proofs.Seams

/-!
# Nesting of brackets

What is read as a phrase opens and closes brackets in pairs. Around each of its tokens some
of them are open, and the innermost one says which separators may stand there. All this is
told from the tokens alone, with the open brackets on a stack.
-/
namespace ExprLang

open ExprLang.Parser Cursor

/-- A closing mark belongs to an opening one. -/
def Pairs (opening closing : Char) : Prop :=
  opening = '(' ∧ closing = ')' ∨ opening = '{' ∧ closing = '}'

/-- A separator may stand directly inside the innermost open bracket, if there is one. -/
def Separates (separator : Char) (innermost : Option Char) : Prop :=
  separator = ',' ∧ innermost = some '(' ∨
    separator = ';' ∧ (innermost = some '{' ∨ innermost = none)

theorem Pairs.parentheses : Pairs '(' ')' := .inl ⟨rfl, rfl⟩

theorem Pairs.braces : Pairs '{' '}' := .inr ⟨rfl, rfl⟩

theorem Separates.comma : Separates ',' (some '(') := .inl ⟨rfl, rfl⟩

theorem Separates.semicolon : Separates ';' (some '{') := .inr ⟨rfl, .inl rfl⟩

/-- What is left open when a bracket is closed, which has to be the innermost one. -/
def closed (opening : Char) : List Char → Option (List Char)
  | [] => none
  | innermost :: stack => if innermost = opening then some stack else none

namespace Token

/-- The brackets that are open behind a token, the innermost first. -/
def nest (stack : List Char) (t : Token) : Option (List Char) :=
  if t.isMark '(' then some ('(' :: stack)
  else if t.isMark '{' then some ('{' :: stack)
  else if t.isMark ')' then closed '(' stack
  else if t.isMark '}' then closed '{' stack
  else some stack

/-- A token may stand where these brackets are open. -/
structure Allowed (stack : List Char) (t : Token) : Prop where
  comma : t.isMark ',' = true → stack.head? = some '('
  semicolon : t.isMark ';' = true → stack.head? = some '{' ∨ stack = []
  notSquare : t.isMark '[' = false ∧ t.isMark ']' = false

variable {t : Token} {m : Char} {stack : List Char}

theorem isMark_of_isMark (h : t.isMark m = true) (n : Char) : t.isMark n = (m == n) := by
  obtain ⟨hk, hf⟩ := isMark_iff.1 h
  simp [isMark, hk, hf]

theorem isMark_of_kind (h : t.kind ≠ .punctuation) (n : Char) : t.isMark n = false := by
  simp [isMark, h]

theorem nest_of_kind (h : t.kind ≠ .punctuation) : t.nest stack = some stack := by
  simp [nest, isMark_of_kind h]

theorem allowed_of_kind (h : t.kind ≠ .punctuation) : t.Allowed stack := by
  constructor <;> simp [isMark_of_kind h]

theorem nest_opening {closing : Char} (hm : Pairs m closing) (h : t.isMark m = true) :
    t.nest stack = some (m :: stack) := by
  rcases hm with ⟨rfl, -⟩ | ⟨rfl, -⟩ <;> simp [nest, isMark_of_isMark h]

theorem nest_closing {opening : Char} (hm : Pairs opening m) (h : t.isMark m = true) :
    t.nest (opening :: stack) = some stack := by
  rcases hm with ⟨rfl, rfl⟩ | ⟨rfl, rfl⟩ <;> simp [nest, isMark_of_isMark h, closed]

theorem allowed_of_pairs {opening closing : Char} (hm : Pairs opening closing)
    (h : t.isMark m = true) (hor : m = opening ∨ m = closing) : t.Allowed stack := by
  rcases hm with ⟨rfl, rfl⟩ | ⟨rfl, rfl⟩ <;> rcases hor with rfl | rfl <;>
    constructor <;> simp [isMark_of_isMark h]

theorem nest_separator (hm : Separates m stack.head?) (h : t.isMark m = true) :
    t.nest stack = some stack := by
  rcases hm with ⟨rfl, -⟩ | ⟨rfl, -⟩ <;> simp [nest, isMark_of_isMark h]

theorem allowed_of_separates (hm : Separates m stack.head?) (h : t.isMark m = true) :
    t.Allowed stack := by
  rcases hm with ⟨rfl, hs⟩ | ⟨rfl, hs⟩ <;> constructor <;>
    simp_all [isMark_of_isMark h]

end Token

/-- The brackets that are open behind tokens, with some open before them, unless one of the
tokens closes a bracket that is not the innermost. -/
def openAfter (stack : List Char) (ts : List Token) : Option (List Char) :=
  ts.foldlM Token.nest stack

/-- Tokens lead from open brackets to others, each of them allowed where it stands. -/
inductive Nesting : List Char → List Token → List Char → Prop
  | nil {stack : List Char} : Nesting stack [] stack
  | cons {stack₁ stack₂ stack₃ : List Char} {t : Token} {ts : List Token}
    (ht : t.Allowed stack₁) (hnest : t.nest stack₁ = some stack₂)
    (h : Nesting stack₂ ts stack₃) : Nesting stack₁ (t :: ts) stack₃

namespace Nesting

variable {stack₁ stack₂ stack₃ : List Char} {ts us : List Token} {t : Token}

theorem append (h : Nesting stack₁ ts stack₂) (h' : Nesting stack₂ us stack₃) :
    Nesting stack₁ (ts ++ us) stack₃ := by
  induction h with
  | nil => exact h'
  | cons ht hnest _ ih => exact .cons ht hnest (ih h')

theorem openAfter_eq (h : Nesting stack₁ ts stack₂) : openAfter stack₁ ts = some stack₂ := by
  induction h with
  | nil => rfl
  | cons _ hnest _ ih => simpa [openAfter, hnest] using ih

/-- Before each of the tokens some brackets are open, and the token is allowed there. -/
theorem exists_of_append (h : Nesting stack₁ (ts ++ t :: us) stack₃) :
    ∃ stack₂, openAfter stack₁ ts = some stack₂ ∧ t.Allowed stack₂ := by
  induction ts generalizing stack₁ with
  | nil =>
    cases h with
    | cons ht => exact ⟨stack₁, rfl, ht⟩
  | cons u ts ih =>
    cases h with
    | cons _ hnest h =>
      obtain ⟨stack₂, hopen, ht⟩ := ih h
      exact ⟨stack₂, by simpa [openAfter, hnest] using hopen, ht⟩

end Nesting

/-- Before the last mark the current token stands in front of what comes next. -/
theorem Cursor.eq_push_current {c : Cursor} (h : 0 < c.size) : c = push [c.current] c.next := by
  obtain ⟨_ | ⟨x, xs⟩, last⟩ := c
  · simp [size] at h
  · rfl

theorem Cursor.eq_push_current_of_isMark {c : Cursor} {m : Char}
    (h : c.current.isMark m = true) : c = push [c.current] c.next :=
  eq_push_current (Nat.zero_lt_of_lt (size_next_lt_of_isMark h))

/-- What is read between two marks has them around it. -/
theorem Cursor.eq_push_of_enclosed {c c₁ : Cursor} {ts : List Token} {opening closing : Char}
    (hopen : c.current.isMark opening = true) (h : c.next = push ts c₁)
    (hclose : c₁.current.isMark closing = true) :
    c = push (c.current :: (ts ++ [c₁.current])) c₁.next := by
  have hinner : c.next = push (ts ++ [c₁.current]) c₁.next := by
    rw [h, ← push_push, ← eq_push_current_of_isMark hclose]
  calc c = push [c.current] c.next := eq_push_current_of_isMark hopen
    _ = push (c.current :: (ts ++ [c₁.current])) c₁.next := by rw [hinner, push_push]; rfl

theorem Cursor.head?_tokens (c : Cursor) : c.tokens.head? = some c.current := by
  obtain ⟨_ | ⟨x, xs⟩, last⟩ := c <;> rfl

theorem Cursor.isChain_next {R : Token → Token → Prop} {c : Cursor} (hc : c.tokens.IsChain R) :
    c.next.tokens.IsChain R := by
  obtain ⟨_ | ⟨x, xs⟩, last⟩ := c
  · exact hc
  · exact hc.of_cons

/-- Between two cursors all brackets that are opened are closed, and each token is allowed
directly or more deeply inside the innermost bracket that is open around them. -/
def Nests (innermost : Option Char) (c c' : Cursor) : Prop :=
  ∃ ts, c = push ts c' ∧ ∀ stack : List Char, stack.head? = innermost → Nesting stack ts stack

namespace Nests

variable {o : Option Char} {c c₁ c' : Cursor} {m : Char}

theorem refl (c : Cursor) : Nests o c c := ⟨[], rfl, fun _ _ => .nil⟩

theorem trans (h : Nests o c c₁) (h' : Nests o c₁ c') : Nests o c c' := by
  obtain ⟨ts, rfl, hts⟩ := h
  obtain ⟨us, rfl, hus⟩ := h'
  exact ⟨ts ++ us, push_push .., fun stack hs => (hts stack hs).append (hus stack hs)⟩

/-- A token that is no mark may stand anywhere. -/
theorem plain (hc : 0 < c.size) (hk : c.current.kind ≠ .punctuation) : Nests o c c.next := by
  refine ⟨[c.current], eq_push_current hc, fun _ _ => ?_⟩
  exact .cons (Token.allowed_of_kind hk) (Token.nest_of_kind hk) .nil

theorem kind {k : TokenKind} (h : c.current.kind = k) (he : k ≠ .eof) (hp : k ≠ .punctuation) :
    Nests o c c.next :=
  plain (Nat.zero_lt_of_lt (size_next_lt_of_kind (h ▸ he))) (h ▸ hp)

theorem word {w : String} (h : c.current.isWord .keyword w = true) : Nests o c c.next :=
  kind (Token.isWord_iff.1 h).1 nofun nofun

theorem separator (hm : Separates m o) (h : c.current.isMark m = true) : Nests o c c.next := by
  refine ⟨[c.current], eq_push_current_of_isMark h, ?_⟩
  rintro stack rfl
  exact .cons (Token.allowed_of_separates hm h) (Token.nest_separator hm h) .nil

/-- What is nested inside brackets may stand anywhere with them around it. -/
theorem brackets {opening closing : Char} (hm : Pairs opening closing)
    (hopen : c.current.isMark opening = true) (h : Nests (some opening) c.next c₁)
    (hclose : c₁.current.isMark closing = true) : Nests o c c₁.next := by
  obtain ⟨ts, hn, hts⟩ := h
  refine ⟨_, eq_push_of_enclosed hopen hn hclose, fun stack _ => ?_⟩
  have hx : c.current.Allowed stack := Token.allowed_of_pairs hm hopen (.inl rfl)
  have hy : c₁.current.Allowed (opening :: stack) := Token.allowed_of_pairs hm hclose (.inr rfl)
  exact .cons hx (Token.nest_opening hm hopen)
    ((hts (opening :: stack) rfl).append (.cons hy (Token.nest_closing hm hclose) .nil))

section Lists

variable {α : Type} {element : Parser α} {separator closing opening : Char}

/-- A list in brackets, with elements that may stand directly inside them. -/
theorem delimited (hm : Pairs opening closing) (hsep : Separates separator (some opening))
    (hf : ∀ n, Follows Eq n Eq element element)
    (he : ∀ ⦃c a c'⦄, element c = .ok a c' → Nests (some opening) c c') {as : List α}
    (h : Parser.delimited opening closing separator element c = .ok as c') : Nests o c c' := by
  have hitems : ∀ {as : List α} {c c' : Cursor},
      repeated (nextElement closing separator element) c = .ok as c' →
        Nests (some opening) c c' :=
    items_induction (motive := fun _ => Nests (some opening)) closing separator hf refl
      (fun _ => Nests.separator hsep) fun _ _ _ _ _ hs ha hrest =>
        (Nests.separator hsep hs).trans ((he ha).trans hrest)
  obtain ⟨hopen, c₁, has, hclose, rfl⟩ := delimited_eq_ok.1 h
  refine brackets hm hopen ?_ hclose
  rcases (elements_eq_ok ..).1 has with ⟨-, -, rfl⟩ | ⟨-, a, c₂, as, ha, hrest, -⟩
  · exact refl _
  · exact (he ha).trans (hitems hrest)

end Lists

theorem parameter {p : Parameter} (h : Rule.parameter c = .ok p c') : Nests o c c' := by
  obtain ⟨ht, ⟨hn, -, rfl⟩ | ⟨-, -, rfl⟩⟩ := Rule.parameter_eq_ok.1 h
  · exact (kind ht nofun nofun).trans (kind hn nofun nofun)
  · exact kind ht nofun nofun

theorem parameters {ps : List Parameter} (h : Rule.parameters c = .ok ps c') : Nests o c c' :=
  delimited .parentheses .comma (fun _ => Rule.follows_parameter .eq)
    (fun _ _ _ => parameter) h

theorem of_readsParameters {ps : List Parameter} (h : ReadsParameters ps c c') :
    Nests o c c' := by
  cases h with
  | given hm h => exact parameters h
  | omitted hm => exact refl c

theorem names {ps : List String}
    (h : Parser.delimited '(' ')' ',' (expectName .variable) c = .ok ps c') : Nests o c c' := by
  refine delimited .parentheses .comma (fun _ => follows_expectName .eq .variable)
    (fun c n c' h => ?_) h
  obtain ⟨hk, -, rfl⟩ := expectName_eq_ok.1 h
  exact kind hk nofun nofun

theorem size_le (h : Nests o c c') : c'.size ≤ c.size := by
  obtain ⟨ts, rfl, -⟩ := h
  simp

/-- What holds of adjacent tokens holds from any cursor on that is reached. -/
theorem isChain {R : Token → Token → Prop} (h : Nests o c c') (hc : c.tokens.IsChain R) :
    c'.tokens.IsChain R := by
  obtain ⟨ts, rfl, -⟩ := h
  have hsplit : (ts ++ c'.tokens).IsChain R := by
    simpa [push, tokens, List.append_assoc] using hc
  exact hsplit.right_of_append

end Nests

/-- What may be open around a phrase. A list has separators in it. -/
def Phrase.Inside : Phrase → Option Char → Prop
  | elements _ separator _, o | items _ separator _, o => Separates separator o
  | statements _, o => Separates ';' o
  | _, _ => True

/-- The name of a definition may be any token. It is no mark if it keeps to this. -/
def NamesDefinition (t u : Token) : Prop :=
  t.isWord .keyword "def" = true → u.kind ≠ .punctuation

instance (t u : Token) : Decidable (NamesDefinition t u) := inferInstanceAs (Decidable (_ → _))

/-- The brackets in a phrase are nested, if no definition has one for its name. -/
theorem Reads.nests {φ : Phrase} {c c' : Cursor} {o : Option Char} (h : Reads φ c c')
    (hc : c.tokens.IsChain NamesDefinition) (ho : φ.Inside o) : Nests o c c' := by
  -- A definition and its name, before parameters and a body that has a token.
  have hdef : ∀ {ps : List Parameter} {body : Option Expr} {o : Option Char} {c c₁ c' : Cursor},
      c.tokens.IsChain NamesDefinition → c.current.isWord .keyword "def" = true →
      ReadsParameters ps c.next.next c₁ → Reads (.expression body) c₁ c' → Nests o c c₁ := by
    intro ps body o c c₁ c' hc hk hps hb
    have hname : c.next.current.kind ≠ .punctuation :=
      rel_next_of_isChain hc (by simp [(Token.isWord_iff.1 hk).1]) hk
    have hfront : Nests o c.next.next c₁ := .of_readsParameters hps
    have hsize : 0 < c.next.size := by
      have := hb.size_lt
      have := hfront.size_le
      simp only [size_next] at this ⊢
      omega
    exact (Nests.word hk).trans ((Nests.plain hsize hname).trans hfront)
  induction h generalizing o with
  | external hk hn hps =>
    exact (Nests.word hk).trans ((Nests.kind hn nofun nofun).trans (.parameters hps))
  | function hk hps hb ih | bodiless hk hps hb ih =>
    have hfront : Nests o _ _ := hdef hc hk hps hb
    exact hfront.trans (ih (hfront.isChain hc) trivial)
  | ifThen hk _ _ _ ihc iht =>
    have hif : Nests o _ _ := .word hk
    have hcond := hif.trans (ihc (hif.isChain hc) trivial)
    exact hcond.trans (iht (hcond.isChain hc) trivial)
  | ifThenElse hk _ _ helse _ ihc iht ihe | ifThenAbsent hk _ _ helse _ ihc iht ihe =>
    have hif : Nests o _ _ := .word hk
    have hcond := hif.trans (ihc (hif.isChain hc) trivial)
    have hthen := (hcond.trans (iht (hcond.isChain hc) trivial)).trans (.word helse)
    exact hthen.trans (ihe (hthen.isChain hc) trivial)
  | closure hk hps _ ih =>
    have hfront : Nests o _ _ := (Nests.word hk).trans (.names hps)
    exact hfront.trans (ih (hfront.isChain hc) trivial)
  | boolean hk => exact hk.elim .word .word
  | grouping hopen _ hclose ih =>
    exact .brackets .parentheses hopen (ih (isChain_next hc) trivial) hclose
  | braces _ ih => exact ih hc trivial
  | terminal h =>
    rcases Rule.terminalValue_eq_ok h with hk | hk | hk | hk <;> exact .kind hk nofun nofun
  | block hopen _ hclose ih =>
    exact .brackets .braces hopen (ih (isChain_next hc) .semicolon) hclose
  | uncalled => exact .refl _
  | call hopen _ hclose ih =>
    exact .brackets .parentheses hopen (ih (isChain_next hc) .comma) hclose
  | atom _ _ ihu ihc =>
    have hunit : Nests o _ _ := ihu hc trivial
    exact hunit.trans (ihc (hunit.isChain hc) trivial)
  | absentAtom _ _ ih => exact ih hc trivial
  | noOperator => exact .refl _
  | weakOperator => exact .refl _
  | link hk _ _ _ _ ihe ihl =>
    have hop : Nests o _ _ := .kind hk nofun nofun
    have hfront := hop.trans (ihe (hop.isChain hc) trivial)
    exact hfront.trans (ihl (hfront.isChain hc) trivial)
  | expression _ _ _ iha ihl ihc =>
    have hatom : Nests o _ _ := iha hc trivial
    have hchain := hatom.trans (ihl (hatom.isChain hc) trivial)
    exact hchain.trans (ihc (hchain.isChain hc) trivial)
  | absent _ _ _ ih => exact ih hc trivial
  | noElements => exact .refl _
  | elements _ _ _ iho ihos =>
    have hfirst : Nests o _ _ := iho hc trivial
    exact hfirst.trans (ihos (hfirst.isChain hc) ho)
  | noItems => exact .refl _
  | trailing _ hsep => exact .separator ho hsep
  | items _ hsep _ _ _ iho ihos =>
    have hitem := (Nests.separator ho hsep).trans (iho (isChain_next hc) trivial)
    exact hitem.trans (ihos (hitem.isChain hc) ho)
  | noStatements => exact .refl _
  | lastStatement _ _ _ ih => exact ih hc trivial
  | statements _ _ hsep _ iho ihos =>
    have hone := Nests.trans (iho hc trivial) (.separator ho hsep)
    exact hone.trans (ihos (hone.isChain hc) ho)

/-- No statement begins with an operator. -/
theorem Reads.first_of_statements {os : List (Option Expr)} {c c' : Cursor}
    (h : Reads (.statements os) c c') : ∀ t ∈ c.tokens.head?, t.kind ≠ .operator := by
  rw [head?_tokens]
  rintro _ ⟨⟩
  cases h with
  | noStatements hend =>
    have hk : c.current.kind = .eof := by simpa [Cursor.atEnd, Token.isEof] using hend
    simp [hk]
  | lastStatement _ ho | statements _ ho => exact ho.begins.ne_operator

/-- The tokens of a program open and close brackets from none to none. -/
theorem Reads.nesting {os : List (Option Expr)} {ts : List Token} {last : EndMark} {c' : Cursor}
    (h : Reads (.statements os) ⟨ts, last⟩ c') (hts : ∀ t ∈ ts, t.isEof = false)
    (hdef : (tokens ⟨ts, last⟩).IsChain NamesDefinition) :
    Nesting [] (ts ++ [last.token]) [] := by
  obtain rfl := h.eq_of_statements hts
  obtain ⟨us, hus, hnest⟩ := h.nests hdef (.inr ⟨rfl, .inr rfl⟩)
  obtain rfl : ts = us := by simpa [push] using hus
  have hlast : last.token.kind ≠ .punctuation := by simp [EndMark.token]
  exact (hnest [] rfl).append
    (.cons (Token.allowed_of_kind hlast) (Token.nest_of_kind hlast) .nil)

/-- The brackets of a program are properly nested, provided that no definition takes one for
its name. There are no square ones. Commas stand directly inside parentheses, semicolons
directly inside braces or outside all brackets. No operator comes first. -/
theorem nested_of_ofSource {source file streamFile : String} {tokens : List Token} {p : Program}
    (ht : tokenize source file = .ok tokens) (hdef : tokens.IsChain NamesDefinition)
    (hp : Program.ofSource source file streamFile = .ok p) :
    openAfter [] tokens = some [] ∧
      (∀ t ∈ tokens, t.isMark '[' = false ∧ t.isMark ']' = false) ∧
      (∀ t ∈ tokens.head?, t.kind ≠ .operator) ∧
      ∀ front t back, tokens = front ++ t :: back → ∃ stack, openAfter [] front = some stack ∧
        (t.isMark ',' = true → stack.head? = some '(') ∧
        (t.isMark ';' = true → stack.head? = some '{' ∨ stack = []) := by
  obtain ⟨tokens', ht', hp⟩ := Program.ofSource_eq_ok.1 hp
  obtain rfl : tokens = tokens' := Except.ok.inj (ht.symm.trans ht')
  obtain ⟨-, rfl⟩ := tokenize_eq_ok.1 ht
  obtain ⟨c', hrun⟩ := (ofTokens_eq_ok_iff rfl).1 hp
  obtain ⟨os, hos, -⟩ := program_eq_ok_iff.1 hrun
  have hnest := hos.nesting (fun t ht => (of_mem_tokensFrom ht).1) hdef
  refine ⟨hnest.openAfter_eq, fun t ht => ?_, ?_, fun front t back hsplit => ?_⟩
  · obtain ⟨front, back, hsplit⟩ := List.append_of_mem ht
    obtain ⟨_, -, hallowed⟩ := Nesting.exists_of_append (hsplit ▸ hnest)
    exact hallowed.notSquare
  · exact hos.first_of_statements
  · obtain ⟨stack, hopen, hallowed⟩ := Nesting.exists_of_append (hsplit ▸ hnest)
    exact ⟨stack, hopen, hallowed.comma, hallowed.semicolon⟩

/-- A block among arguments, and a definition that ends with a semicolon. -/
theorem nested_of_ofSource_block :
    let source := "f(\x7bx;\x7d, 1); def g n;"
    let tokens : List Token := [⟨.identifier, "f", 0, 1, "s"⟩, ⟨.punctuation, "(", 1, 2, "s"⟩,
      ⟨.punctuation, "\x7b", 2, 3, "s"⟩, ⟨.identifier, "x", 3, 4, "s"⟩,
      ⟨.punctuation, ";", 4, 5, "s"⟩, ⟨.punctuation, "\x7d", 5, 6, "s"⟩,
      ⟨.punctuation, ",", 6, 7, "s"⟩, ⟨.number, "1", 8, 9, "s"⟩, ⟨.punctuation, ")", 9, 10, "s"⟩,
      ⟨.punctuation, ";", 10, 11, "s"⟩, ⟨.keyword, "def", 12, 15, "s"⟩,
      ⟨.identifier, "g", 16, 17, "s"⟩, ⟨.identifier, "n", 18, 19, "s"⟩,
      ⟨.punctuation, ";", 19, 20, "s"⟩, endToken 20 "s"]
    let p : Program := ⟨[.call (.symbol "f") [.block [.symbol "x"], .number 1],
      .function "g" [] (.symbol "n")]⟩
    tokenize source "s" = .ok tokens ∧ tokens.IsChain NamesDefinition ∧
      Program.ofSource source "s" "s" = .ok p ∧ openAfter [] tokens = some [] ∧
      (∀ t ∈ tokens, t.isMark '[' = false ∧ t.isMark ']' = false) ∧
      (∀ t ∈ tokens.head?, t.kind ≠ .operator) ∧
      ∀ front t back, tokens = front ++ t :: back → ∃ stack, openAfter [] front = some stack ∧
        (t.isMark ',' = true → stack.head? = some '(') ∧
        (t.isMark ';' = true → stack.head? = some '{' ∨ stack = []) := by
  intro source tokens p
  have ht : tokenize source "s" = .ok tokens := by decide +kernel
  have hdef : tokens.IsChain NamesDefinition := by decide
  have hp : Program.ofSource source "s" "s" = .ok p := by decide +kernel
  exact ⟨ht, hdef, hp, nested_of_ofSource ht hdef hp⟩

end ExprLang
