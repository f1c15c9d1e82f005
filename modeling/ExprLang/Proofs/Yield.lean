import ExprLang.Proofs.Chains
import ExprLang.Proofs.Reading

/-!
# Yields

The yield of a tree is what the tree says about the tokens of its source, one leaf for
each token in the order of the source. Marks leave no trace in a tree, every other
token has its leaf: reading neither loses nor repeats nor moves any.
-/
namespace ExprLang

/-- What a tree says about a token. A numeral is told apart by its value alone, and a
character literal by its first character. -/
inductive Leaf where
  | word (kind : TokenKind) (value : String)
  | numeral (value : Int32)
  | character (code : UInt32)
  deriving DecidableEq, Repr

namespace Leaf

def keyword (word : String) : Leaf := .word .keyword word

def name (name : String) : Leaf := .word .identifier name

def operator (operator : String) : Leaf := .word .operator operator

/-- A token is one that the leaf tells of. -/
def Fits : Leaf → Token → Prop
  | word kind value, t => t.kind = kind ∧ t.value = value
  | numeral value, t => t.kind = .number ∧ numeral? t.value = some value
  | character code, t => t.kind = .character ∧ (t.firstChar.map Char.val).getD 0 = code

end Leaf

/-- The type of a parameter, and then its name. -/
def Parameter.yield (p : Parameter) : List Leaf := .name p.type :: p.name.toList.map .name

namespace Expr

mutual

def yield : Expr → List Leaf
  | number value => [.numeral value]
  | string value => [.word .string value]
  | character code => [.character code]
  | boolean value => [.keyword (booleanText value)]
  | symbol name => [.name name]
  | assignment operator assignee value => yield assignee ++ .operator operator :: yield value
  | binary operator left right => yield left ++ .operator operator :: yield right
  | ifThen condition thenBranch => .keyword "if" :: (yield condition ++ yield thenBranch)
  | ifThenElse condition thenBranch elseBranch =>
    .keyword "if" :: (yield condition ++ yield thenBranch ++ .keyword "else" :: yield elseBranch)
  | function name params body =>
    .keyword "def" :: .name name :: (params.flatMap Parameter.yield ++ yield body)
  | external name params => .keyword "ext" :: .name name :: params.flatMap Parameter.yield
  | closure params body => .keyword "cls" :: (params.map .name ++ yield body)
  | call callee arguments => yield callee ++ yields arguments
  | block body => yields body

/-- The yields of expressions, one behind the other. -/
def yields : List Expr → List Leaf
  | [] => []
  | e :: es => yield e ++ yields es

end

@[simp] theorem yield_joined (operator : String) (left right : Expr) :
    (joined operator left right).yield = left.yield ++ .operator operator :: right.yield := by
  unfold joined
  split_ifs <;> rfl

end Expr

/-- The yields of the top-level expressions in order. -/
def Program.yield (p : Program) : List Leaf := Expr.yields p.body

def Link.yield (l : Link) : List Leaf := .operator l.operator :: l.operand.yield

/-- A chain keeps its operands and operators in order. -/
theorem yield_ofChain (first : Expr) (ls : List Link) :
    (ofChain first ls).yield = first.yield ++ ls.flatMap Link.yield := by
  induction first, ls using ofChain_induction with
  | nil first => simp
  | cons first l front back right tree hright htree =>
    rw [htree, Expr.yield_joined, hright, List.flatMap_cons, Link.yield, List.flatMap_append]
    simp

namespace Token

/-- Neither an end mark nor a mark, but a token that has its leaf in a tree. -/
def isLeaf (t : Token) : Bool := t.kind != .eof && t.kind != .punctuation

/-- A token may stand before another. Empty braces have no value, and the name that a
definition takes from the next token is a name. -/
def Precedes (t u : Token) : Prop :=
  (t.isMark '{' = true → u.isMark '}' = false) ∧
    (t.isWord .keyword "def" = true → u.kind = .identifier)

instance (t u : Token) : Decidable (t.Precedes u) := inferInstanceAs (Decidable (_ ∧ _))

end Token

/-- What holds of adjacent tokens holds of the current one and the next. -/
theorem Cursor.rel_next_of_isChain {R : Token → Token → Prop} {c : Cursor}
    (hc : c.tokens.IsChain R) (h : c.current.kind ≠ .eof) : R c.current c.next.current := by
  obtain ⟨_ | ⟨t, _ | ⟨u, ts⟩⟩, last⟩ := c
  · exact absurd rfl h
  · simpa [Cursor.tokens] using hc
  · simp only [Cursor.tokens, List.cons_append, List.isChain_cons_cons] at hc
    exact hc.1

/-- The tokens that are passed between two cursors fit leaves, apart from the marks. -/
def Spells (ls : List Leaf) (c c' : Cursor) : Prop :=
  ∃ ts, c = ⟨ts ++ c'.ahead, c'.last⟩ ∧ List.Forall₂ Leaf.Fits ls (ts.filter Token.isLeaf)

namespace Spells

variable {ls ls' : List Leaf} {c c₁ c' : Cursor}

theorem refl (c : Cursor) : Spells [] c c := ⟨[], rfl, .nil⟩

theorem trans (h : Spells ls c c₁) (h' : Spells ls' c₁ c') : Spells (ls ++ ls') c c' := by
  obtain ⟨ts, rfl, hts⟩ := h
  obtain ⟨ts', rfl, hts'⟩ := h'
  refine ⟨ts ++ ts', by simp, ?_⟩
  rw [List.filter_append]
  exact List.rel_append hts hts'

theorem leaf {l : Leaf} (h : l.Fits c.current) (hl : c.current.isLeaf = true) :
    Spells [l] c c.next := by
  obtain ⟨_ | ⟨t, ts⟩, last⟩ := c
  · simp [Token.isLeaf, EndMark.token] at hl
  · have hl : t.isLeaf = true := hl
    refine ⟨[t], rfl, ?_⟩
    rw [List.filter_cons_of_pos hl]
    exact .cons h .nil

theorem mark {m : Char} (h : c.current.isMark m = true) : Spells [] c c.next := by
  obtain ⟨hk, -⟩ := Token.isMark_iff.1 h
  obtain ⟨_ | ⟨t, ts⟩, last⟩ := c
  · simp [EndMark.token] at hk
  · refine ⟨[t], rfl, ?_⟩
    have hl : t.isLeaf = false := by simp_all [Token.isLeaf]
    simp [hl]

theorem word {kind : TokenKind} {value : String} (hk : c.current.kind = kind)
    (hv : c.current.value = value) (he : kind ≠ .eof) (hp : kind ≠ .punctuation) :
    Spells [.word kind value] c c.next :=
  leaf ⟨hk, hv⟩ (by simp [Token.isLeaf, hk, he, hp])

theorem keyword {value : String} (h : c.current.isWord .keyword value = true) :
    Spells [.keyword value] c c.next :=
  word (Token.isWord_iff.1 h).1 (Token.isWord_iff.1 h).2 nofun nofun

theorem name (h : c.current.kind = .identifier) : Spells [.name c.current.value] c c.next :=
  word h rfl nofun nofun

theorem operator (h : c.current.kind = .operator) :
    Spells [.operator c.current.value] c c.next := word h rfl nofun nofun

theorem mark_trans {m : Char} (hm : c.current.isMark m = true) (h : Spells ls c.next c') :
    Spells ls c c' := (mark hm).trans h

theorem trans_mark {m : Char} (h : Spells ls c c₁) (hm : c₁.current.isMark m = true) :
    Spells ls c c₁.next := by simpa using h.trans (mark hm)

/-- What holds of adjacent tokens holds from any cursor on that is reached. -/
theorem isChain {R : Token → Token → Prop} (h : Spells ls c c') (hc : c.tokens.IsChain R) :
    c'.tokens.IsChain R := by
  obtain ⟨ts, rfl, -⟩ := h
  have hsplit : (ts ++ c'.tokens).IsChain R := by
    simpa [Cursor.tokens, List.append_assoc] using hc
  exact hsplit.right_of_append

section Lists

open ExprLang.Parser

variable {α : Type} {element : Parser α} {leaves : α → List Leaf} {close separator : Char}

/-- A list spells the leaves of its elements. -/
theorem delimited {opening : Char} (hf : ∀ n, Follows Eq n Eq element element)
    (he : ∀ ⦃c a c'⦄, element c = .ok a c' → Spells (leaves a) c c') {as : List α}
    (h : Parser.delimited opening close separator element c = .ok as c') :
    Spells (as.flatMap leaves) c c' := by
  have hitems : ∀ {as : List α} {c c' : Cursor},
      repeated (nextElement close separator element) c = .ok as c' →
        Spells (as.flatMap leaves) c c' :=
    items_induction (motive := fun as c c' => Spells (as.flatMap leaves) c c') close separator hf
      refl (fun _ => mark) fun _ _ _ _ _ hsep ha hrest => mark_trans hsep ((he ha).trans hrest)
  obtain ⟨hopen, c₁, has, hclose, rfl⟩ := delimited_eq_ok.1 h
  refine mark_trans hopen (trans_mark ?_ hclose)
  rcases (elements_eq_ok ..).1 has with ⟨-, rfl, rfl⟩ | ⟨-, a, c₂, as, ha, hrest, rfl⟩
  · exact refl _
  · exact (he ha).trans (hitems hrest)

end Lists

theorem parameter {p : Parameter} (h : Rule.parameter c = .ok p c') : Spells p.yield c c' := by
  obtain ⟨ht, ⟨hn, rfl, rfl⟩ | ⟨-, rfl, rfl⟩⟩ := Rule.parameter_eq_ok.1 h
  · exact (name ht).trans (name hn)
  · exact name ht

theorem parameters {ps : List Parameter} (h : Rule.parameters c = .ok ps c') :
    Spells (ps.flatMap Parameter.yield) c c' :=
  delimited (fun _ => Rule.follows_parameter .eq) (fun _ _ _ => parameter) h

theorem of_readsParameters {ps : List Parameter} (h : ReadsParameters ps c c') :
    Spells (ps.flatMap Parameter.yield) c c' := by
  cases h with
  | given hm h => exact parameters h
  | omitted hm => exact refl c

theorem names {ps : List String}
    (h : Parser.delimited '(' ')' ',' (Parser.expectName .variable) c = .ok ps c') :
    Spells (ps.map .name) c c' := by
  have hname : ∀ ⦃c n c'⦄, Parser.expectName .variable c = .ok n c' →
      Spells [.name n] c c' := by
    intro c n c' h
    obtain ⟨hk, rfl, rfl⟩ := Parser.expectName_eq_ok.1 h
    exact name hk
  have h := delimited (fun _ => Parser.follows_expectName .eq .variable) hname h
  rwa [← List.map_eq_flatMap] at h

theorem terminal {e : Expr} (h : Rule.terminalValue c.current = .ok e) :
    Spells e.yield c c.next := by
  unfold Rule.terminalValue at h
  split at h
  · next hk =>
    obtain rfl := Except.ok.inj h
    exact name hk
  · next hk =>
    split at h
    · next hn =>
      obtain rfl := Except.ok.inj h
      exact leaf ⟨hk, hn⟩ (by simp [Token.isLeaf, hk])
    · simp at h
  · next hk =>
    obtain rfl := Except.ok.inj h
    exact leaf ⟨hk, rfl⟩ (by simp [Token.isLeaf, hk])
  · next hk =>
    obtain rfl := Except.ok.inj h
    exact word hk rfl nofun nofun
  · simp at h

end Spells

/-- Every value is there, and their yields are the leaves. -/
def YieldAll (os : List (Option Expr)) (ls : List Leaf) : Prop :=
  ∃ es : List Expr, os = es.map some ∧ ls = Expr.yields es

/-- What a phrase has to yield where it is read. An absent expression yields nothing that
the tokens could be held against, so that a phrase has to be there as well. -/
def Phrase.Yields : Phrase → List Leaf → Prop
  | unit o, ls | block o, ls | atom o, ls | expression o, ls => ∃ e, o = some e ∧ ls = e.yield
  | called callee e, ls => e.yield = callee.yield ++ ls
  | links _ chain, ls => ls = chain.flatMap Link.yield
  | elements _ _ os, ls | items _ _ os, ls | statements os, ls => YieldAll os ls

/-- Tokens that may stand next to each other lie ahead, and one end mark. -/
def Tidy (c : Cursor) : Prop :=
  c.tokens.IsChain Token.Precedes ∧ ∀ t ∈ c.ahead, t.isEof = false

namespace Tidy

variable {c c' : Cursor}

theorem of_spells {ls : List Leaf} (hc : Tidy c) (h : Spells ls c c') : Tidy c' := by
  refine ⟨h.isChain hc.1, ?_⟩
  obtain ⟨ts, rfl, -⟩ := h
  exact fun t ht => hc.2 t (List.mem_append_right ts ht)

/-- The current token stands before the next one. -/
theorem precedes (hc : Tidy c) (h : c.current.kind ≠ .eof) :
    c.current.Precedes c.next.current := Cursor.rel_next_of_isChain hc.1 h

theorem eq_nil_of_atEnd (hc : Tidy c) (h : c.atEnd = true) : c.ahead = [] := by
  obtain ⟨_ | ⟨t, ts⟩, last⟩ := c
  · rfl
  · have := hc.2 t (by simp)
    simp_all [Cursor.atEnd]

end Tidy

/-- A phrase is there where it is read, and its yield is what the tokens say. -/
theorem Reads.spells {φ : Phrase} {c c' : Cursor} (h : Reads φ c c') (hc : Tidy c) :
    ∃ ls, φ.Yields ls ∧ Spells ls c c' := by
  induction h with
  | external hk hn hps =>
    exact ⟨_, ⟨_, rfl, rfl⟩, (Spells.keyword hk).trans ((Spells.name hn).trans (.parameters hps))⟩
  | function hk hps _ ih =>
    have hn := (hc.precedes (by simp [(Token.isWord_iff.1 hk).1])).2 hk
    have hfront := (Spells.keyword hk).trans ((Spells.name hn).trans (.of_readsParameters hps))
    obtain ⟨_, ⟨_, ⟨⟩, rfl⟩, hs⟩ := ih (hc.of_spells hfront)
    refine ⟨_, ⟨_, rfl, rfl⟩, ?_⟩
    simpa [Expr.yield] using hfront.trans hs
  | bodiless hk hps _ ih =>
    have hn := (hc.precedes (by simp [(Token.isWord_iff.1 hk).1])).2 hk
    have hfront := (Spells.keyword hk).trans ((Spells.name hn).trans (.of_readsParameters hps))
    obtain ⟨_, ⟨_, ⟨⟩, -⟩, -⟩ := ih (hc.of_spells hfront)
  | ifThen hk _ _ helse ihc iht =>
    have hif := Spells.keyword hk
    obtain ⟨_, ⟨_, ⟨⟩, rfl⟩, hs⟩ := ihc (hc.of_spells hif)
    obtain ⟨_, ⟨_, ⟨⟩, rfl⟩, ht⟩ := iht (hc.of_spells (hif.trans hs))
    exact ⟨_, ⟨_, rfl, rfl⟩, hif.trans (hs.trans ht)⟩
  | ifThenElse hk _ _ helse _ ihc iht ihe =>
    have hif := Spells.keyword hk
    obtain ⟨_, ⟨_, ⟨⟩, rfl⟩, hs⟩ := ihc (hc.of_spells hif)
    have hcond := hif.trans hs
    obtain ⟨_, ⟨_, ⟨⟩, rfl⟩, ht⟩ := iht (hc.of_spells hcond)
    have hthen := (hcond.trans ht).trans (Spells.keyword helse)
    obtain ⟨_, ⟨_, ⟨⟩, rfl⟩, he⟩ := ihe (hc.of_spells hthen)
    refine ⟨_, ⟨_, rfl, rfl⟩, ?_⟩
    simpa [Expr.yield] using hthen.trans he
  | ifThenAbsent hk _ _ helse _ ihc iht ihe =>
    have hif := Spells.keyword hk
    obtain ⟨_, -, hs⟩ := ihc (hc.of_spells hif)
    have hcond := hif.trans hs
    obtain ⟨_, -, ht⟩ := iht (hc.of_spells hcond)
    obtain ⟨_, ⟨_, ⟨⟩, -⟩, -⟩ := ihe (hc.of_spells ((hcond.trans ht).trans (Spells.keyword helse)))
  | closure hk hps _ ih =>
    have hfront := (Spells.keyword hk).trans (.names hps)
    obtain ⟨_, ⟨e, rfl, rfl⟩, hs⟩ := ih (hc.of_spells hfront)
    refine ⟨_, ⟨_, rfl, rfl⟩, ?_⟩
    simpa [Expr.yield] using hfront.trans hs
  | @boolean c hk =>
    have hv : c.current.value = Expr.booleanText (c.current.value == "true") := by
      rcases hk with hk | hk <;> rw [(Token.isWord_iff.1 hk).2] <;> rfl
    have hkind : c.current.kind = .keyword :=
      hk.elim (fun h => (Token.isWord_iff.1 h).1) fun h => (Token.isWord_iff.1 h).1
    exact ⟨_, ⟨_, rfl, rfl⟩, .word hkind hv nofun nofun⟩
  | grouping hopen _ hclose ih =>
    obtain ⟨_, hy, hs⟩ := ih (hc.of_spells (.mark hopen))
    exact ⟨_, hy, (hs.trans_mark hclose).mark_trans hopen⟩
  | braces _ ih => exact ih hc
  | terminal h => exact ⟨_, ⟨_, rfl, rfl⟩, .terminal h⟩
  | @block c c₁ os hopen hel hclose ih =>
    obtain ⟨_, ⟨es, rfl, rfl⟩, hs⟩ := ih (hc.of_spells (.mark hopen))
    refine ⟨_, ⟨.block es, ?_, rfl⟩, (hs.trans_mark hclose).mark_trans hopen⟩
    cases es with
    | nil =>
      cases hel with
      | noElements =>
        have := (hc.precedes (by simp [(Token.isMark_iff.1 hopen).1])).1 hopen
        simp [this] at hclose
    | cons e es => simp [blockOf]
  | uncalled => exact ⟨[], by simp [Phrase.Yields], .refl _⟩
  | call hopen _ hclose ih =>
    obtain ⟨_, ⟨es, hes, rfl⟩, hs⟩ := ih (hc.of_spells (.mark hopen))
    obtain rfl := List.map_injective_iff.2 (Option.some_injective _) hes
    exact ⟨_, rfl, (hs.trans_mark hclose).mark_trans hopen⟩
  | atom _ _ ihu ihc =>
    obtain ⟨_, ⟨_, ⟨⟩, rfl⟩, hs⟩ := ihu hc
    obtain ⟨_, hy, hcall⟩ := ihc (hc.of_spells hs)
    exact ⟨_, ⟨_, rfl, hy.symm⟩, hs.trans hcall⟩
  | absentAtom _ _ ih =>
    obtain ⟨_, ⟨_, ⟨⟩, -⟩, -⟩ := ih hc
  | noOperator => exact ⟨[], rfl, .refl _⟩
  | weakOperator => exact ⟨[], rfl, .refl _⟩
  | link hk hp hs _ _ ihe ihl =>
    have hop := Spells.operator hk
    obtain ⟨_, ⟨_, ⟨⟩, rfl⟩, he⟩ := ihe (hc.of_spells hop)
    obtain ⟨_, rfl, hls⟩ := ihl (hc.of_spells (hop.trans he))
    exact ⟨_, rfl, (hop.trans he).trans hls⟩
  | expression _ _ _ iha ihl ihc =>
    obtain ⟨_, ⟨_, ⟨⟩, rfl⟩, ha⟩ := iha hc
    obtain ⟨_, rfl, hls⟩ := ihl (hc.of_spells ha)
    obtain ⟨_, hy, hcall⟩ := ihc (hc.of_spells (ha.trans hls))
    rw [Phrase.Yields, yield_ofChain] at hy
    exact ⟨_, ⟨_, rfl, hy.symm⟩, (ha.trans hls).trans hcall⟩
  | absent _ _ _ ih =>
    obtain ⟨_, ⟨_, ⟨⟩, -⟩, -⟩ := ih hc
  | noElements => exact ⟨[], ⟨[], rfl, rfl⟩, .refl _⟩
  | elements _ _ _ iho ihos =>
    obtain ⟨_, ⟨e, rfl, rfl⟩, he⟩ := iho hc
    obtain ⟨_, ⟨es, rfl, rfl⟩, hes⟩ := ihos (hc.of_spells he)
    exact ⟨_, ⟨e :: es, rfl, rfl⟩, he.trans hes⟩
  | noItems => exact ⟨[], ⟨[], rfl, rfl⟩, .refl _⟩
  | trailing _ hsep => exact ⟨[], ⟨[], rfl, rfl⟩, .mark hsep⟩
  | items _ hsep _ _ _ iho ihos =>
    obtain ⟨_, ⟨e, rfl, rfl⟩, he⟩ := iho (hc.of_spells (.mark hsep))
    have hfront := he.mark_trans hsep
    obtain ⟨_, ⟨es, rfl, rfl⟩, hes⟩ := ihos (hc.of_spells hfront)
    exact ⟨_, ⟨e :: es, rfl, rfl⟩, hfront.trans hes⟩
  | noStatements => exact ⟨[], ⟨[], rfl, rfl⟩, .refl _⟩
  | lastStatement _ _ _ ih =>
    obtain ⟨_, ⟨e, rfl, rfl⟩, he⟩ := ih hc
    exact ⟨_, ⟨[e], rfl, by simp [Expr.yields]⟩, he⟩
  | statements _ _ hsep _ iho ihos =>
    obtain ⟨_, ⟨e, rfl, rfl⟩, he⟩ := iho hc
    have hfront := he.trans_mark hsep
    obtain ⟨_, ⟨es, rfl, rfl⟩, hes⟩ := ihos (hc.of_spells hfront)
    exact ⟨_, ⟨e :: es, rfl, rfl⟩, hfront.trans hes⟩

/-- Statements are read to an end mark. -/
theorem Reads.atEnd_of_statements {os : List (Option Expr)} {c c' : Cursor}
    (h : Reads (.statements os) c c') : c'.atEnd = true := by
  induction os generalizing c with
  | nil =>
    cases h with
    | noStatements hend => exact hend
  | cons o os ih =>
    cases h with
    | lastStatement _ _ hend => exact hend
    | statements _ _ _ hos => exact ih hos

/-- Reading keeps every token that is no mark, once and in its place: these tokens fit the
yield of the program. -/
theorem fits_yield_of_ofTokens {tokens : List Token} {file : String} {p : Program}
    (ht : Terminated tokens) (hadj : tokens.IsChain Token.Precedes)
    (h : Program.ofTokens tokens file = .ok p) :
    List.Forall₂ Leaf.Fits p.yield (tokens.filter Token.isLeaf) := by
  obtain ⟨ts, t, rfl, ht, hts⟩ := ht
  have hstart : Cursor.ofTokens (ts ++ [t]) = ⟨ts, t.value, t.span⟩ := Cursor.ofTokens_append ht
  have hc : Tidy ⟨ts, t.value, t.span⟩ := by
    rw [← hstart]
    exact ⟨by rwa [Cursor.tokens_ofTokens ht], by rwa [hstart]⟩
  obtain ⟨c', hrun⟩ := (ofTokens_eq_ok_iff ht).1 h
  obtain ⟨os, hos, rfl⟩ := program_eq_ok_iff.1 hrun
  obtain ⟨ls, ⟨es, rfl, rfl⟩, hs⟩ := hos.spells hc
  have hnil := (hc.of_spells hs).eq_nil_of_atEnd hos.atEnd_of_statements
  obtain ⟨us, hus, hfits⟩ := hs
  obtain ⟨rfl, -⟩ : ts = us ∧ _ := by simpa [hnil] using hus
  have hlast : t.isLeaf = false := by simp_all [Token.isLeaf, Token.isEof]
  rw [List.filter_append, List.filter_cons_of_neg (by simp [hlast]), List.filter_nil,
    List.append_nil]
  simpa [Program.yield] using hfits

/-- A definition with groups, calls, branches, a closure and numerals in their own spelling. -/
theorem fits_yield_of_ofTokens_definition :
    let tokens := [.detached .keyword "def", .detached .identifier "f",
      .detached .punctuation "(", .detached .identifier "int", .detached .identifier "x",
      .detached .punctuation ")", .detached .keyword "if", .detached .punctuation "(",
      .detached .identifier "x", .detached .operator "+", .detached .number "007",
      .detached .punctuation ")", .detached .operator "*", .detached .number "2",
      .detached .identifier "g", .detached .punctuation "(", .detached .string "a",
      .detached .punctuation ",", .detached .character "bc", .detached .punctuation ")",
      .detached .keyword "else", .detached .keyword "cls", .detached .punctuation "(",
      .detached .identifier "y", .detached .punctuation ")", .detached .punctuation "\x7b",
      .detached .identifier "y", .detached .operator "=", .detached .keyword "true",
      .detached .punctuation ";", .detached .punctuation "\x7d", .detached .eof ""]
    let p : Program := ⟨[.function "f" [⟨"int", some "x"⟩] (.ifThenElse
      (.binary "*" (.binary "+" (.symbol "x") (.number 7)) (.number 2))
      (.call (.symbol "g") [.string "a", .character 98])
      (.closure ["y"] (.block [.assignment "=" (.symbol "y") (.boolean true)])))]⟩
    Terminated tokens ∧ tokens.IsChain Token.Precedes ∧ Program.ofTokens tokens "t" = .ok p ∧
      List.Forall₂ Leaf.Fits p.yield (tokens.filter Token.isLeaf) := by
  intro tokens p
  have ht : Terminated tokens :=
    ⟨_, _, (List.dropLast_append_getLast (by simp [tokens])).symm, by decide, by decide⟩
  have hadj : tokens.IsChain Token.Precedes := by decide
  have h : Program.ofTokens tokens "t" = .ok p := by decide +kernel
  exact ⟨ht, hadj, h, fits_yield_of_ofTokens ht hadj h⟩

end ExprLang
