import ExprLang.Proofs.Slices
import ExprLang.Proofs.Spelling
import ExprLang.Proofs.WordCursor
import ExprLang.Proofs.Yield

/-!
# Legibility of what is read

In the words of a source identifiers are names and numbers are digits. The trees that
are read from such words have legible leaves, but for the names of definitions, which
may be any token.
-/
namespace ExprLang

/-- A word as it stands in a source. -/
structure Word.Legible (w : Word) : Prop where
  name : w.1 = .identifier → isName w.2 = true
  digits : w.1 = .number → ∀ c ∈ w.2.toList, c.isDigit = true

theorem Word.legible_of_ne {w : Word} (hn : w.1 ≠ .identifier) (hd : w.1 ≠ .number) :
    w.Legible := ⟨fun h => absurd h hn, fun h => absurd h hd⟩

section Scan

theorem Lexeme.legible_of_next? {text after : List Char} {l : Lexeme}
    (h : next? text = some (l, after)) : ∀ w ∈ l.reading, Word.Legible w := by
  rintro ⟨kind, value⟩ hw
  have hshows : Token.Shows ⟨kind, value, .null⟩ [] l.text after :=
    shows_of_next? h hw (apart_nil _)
  constructor
  · rintro rfl
    obtain ⟨-, hword, hkey, -⟩ := hshows
    have hnot : value ∉ keywords := by simpa using hkey
    simpa [isName, isKeyword, hnot] using hword
  · rintro rfl
    obtain ⟨hpiece, hrun⟩ := hshows
    exact fun c hc => hrun.forall_mem c (hpiece ▸ hc)

/-- The words of a text are legible. -/
theorem legible_of_mem_scan {text : List Char} {w : Word} (h : w ∈ (scan text).1) :
    w.Legible := by
  obtain ⟨text, l, after, hl, hw⟩ := exists_next?_of_mem_scan h
  exact Lexeme.legible_of_next? hl w hw

theorem legible_of_mem_tokenize {source file : String} {tokens : List Token} {t : Token}
    (h : tokenize source file = .ok tokens) (ht : t ∈ tokens) : Word.Legible t.word := by
  obtain ⟨-, rfl⟩ := tokenize_eq_ok.1 h
  have hscan : (placed file 0 (lexemes source.toList).1).map Token.word =
      (scan source.toList).1 := map_word_placed ..
  rcases List.mem_append.1 ht with ht | ht
  · exact legible_of_mem_scan (hscan ▸ List.mem_map_of_mem ht)
  · obtain rfl := List.mem_singleton.1 ht
    exact Word.legible_of_ne nofun nofun

end Scan

namespace Leaf

/-- What a tree says about a legible word. -/
def Legible : Leaf → Prop
  | word kind value => Word.Legible (kind, value)
  | numeral value => 0 ≤ value.toInt
  | character code => code.isValidChar

theorem legible_of_fits {l : Leaf} {t : Token} (ht : Word.Legible t.word) (h : l.Fits t) :
    l.Legible := by
  cases l with
  | word kind value =>
    obtain ⟨rfl, rfl⟩ := h
    exact ht
  | numeral value =>
    have hdigits : ∀ c ∈ t.value.toList, c.isDigit = true := ht.digits h.1
    have hvalue := h.2
    rw [numeral?_of_isDigit hdigits] at hvalue
    obtain ⟨n, -, hn⟩ := Option.bind_eq_some_iff.1 hvalue
    have hint : value.toInt = n := toInt_of_int32? hn
    show 0 ≤ value.toInt
    omega
  | character code =>
    obtain ⟨-, rfl⟩ := h
    show ((t.firstChar.map Char.val).getD 0).isValidChar
    cases t.firstChar with
    | none => exact .inl (by decide)
    | some c => exact c.valid

end Leaf

/-- Legible words lie ahead, and what is known of names of definitions holds of every
word behind a `def`. -/
structure Cursor.Legible (N : String → Prop) (c : Cursor) : Prop where
  words : ∀ t ∈ c.tokens, Word.Legible t.word
  names : c.tokens.IsChain fun t u => t.isWord .keyword "def" = true → N u.value

namespace Cursor.Legible

variable {N : String → Prop} {c c' : Cursor} {ls : List Leaf}

theorem of_spells (hc : Legible N c) (h : Spells ls c c') : Legible N c' := by
  refine ⟨?_, h.isChain hc.names⟩
  obtain ⟨ts, rfl, -⟩ := h
  intro t ht
  exact hc.words t (by simpa [tokens] using .inr (by simpa [tokens] using ht))

theorem legible_of_spells (hc : Legible N c) (h : Spells ls c c') : ∀ l ∈ ls, l.Legible := by
  obtain ⟨ts, rfl, hfits⟩ := h
  have hwords : ∀ t ∈ ts.filter Token.isLeaf, Word.Legible t.word := by
    intro t ht
    exact hc.words t (by simp [tokens, (List.mem_filter.1 ht).1])
  generalize ts.filter Token.isLeaf = us at hfits hwords
  induction hfits with
  | nil => simp
  | cons hl _ ih =>
    rw [List.forall_mem_cons] at hwords ⊢
    exact ⟨Leaf.legible_of_fits hwords.1 hl, ih hwords.2⟩

theorem next (hc : Legible N c) : Legible N c.next := by
  obtain ⟨_ | ⟨t, ts⟩, last⟩ := c
  · exact hc
  · exact ⟨fun u hu => hc.words u (List.mem_cons_of_mem t hu), hc.names.tail⟩

theorem current (hc : Legible N c) : Word.Legible c.current.word := by
  apply hc.words
  obtain ⟨_ | ⟨t, ts⟩, last⟩ := c <;> simp [tokens]

/-- The word behind a `def`. -/
theorem name (hc : Legible N c) (h : c.current.isWord .keyword "def" = true) :
    N c.next.current.value :=
  rel_next_of_isChain hc.names (by simp [(Token.isWord_iff.1 h).1]) h

end Cursor.Legible

/-- As if legible, but of the names of functions no more than `N` is known. -/
def Expr.Sound (N : String → Prop) : Expr → Prop
  | function name params _ | external name params => N name ∧ ∀ p ∈ params, p.Legible
  | e => e.Legible

theorem Expr.legible_of_sound {e : Expr} (h : e.Sound (isName · = true)) : e.Legible := by
  cases e <;> exact h

section Parts

variable {N : String → Prop}

theorem Parameter.legible_of_yield {ps : List Parameter}
    (h : ∀ l ∈ ps.flatMap Parameter.yield, l.Legible) : ∀ p ∈ ps, p.Legible := by
  intro p hp
  have hyield : ∀ l ∈ p.yield, l.Legible := fun l hl => h l (List.mem_flatMap.2 ⟨p, hp, hl⟩)
  rw [yield, List.forall_mem_cons] at hyield
  refine ⟨hyield.1.name rfl, fun name hname => ?_⟩
  exact (hyield.2 (.name name) (by simp [Option.mem_def.1 hname])).name rfl

/-- A token that is an expression by itself makes a legible leaf. -/
theorem sound_of_terminalValue {c : Cursor} {e : Expr} (hc : c.Legible N)
    (h : Rule.terminalValue c.current = .ok e) : ∀ n ∈ e.nodes, n.Sound N := by
  have hyield := hc.legible_of_spells (Spells.terminal h)
  have hleaf : ∀ {l : Leaf}, e.yield = [l] → l.Legible := fun hl => hyield _ (by simp [hl])
  unfold Rule.terminalValue at h
  split at h
  · obtain rfl := Except.ok.inj h
    have hname : isName c.current.value = true := (hleaf rfl).name rfl
    exact List.forall_mem_singleton.2 hname
  · split at h
    · next value _ =>
      obtain rfl := Except.ok.inj h
      have hvalue : 0 ≤ value.toInt := hleaf rfl
      exact List.forall_mem_singleton.2 hvalue
    · simp at h
  · obtain rfl := Except.ok.inj h
    have hcode : ((c.current.firstChar.map Char.val).getD 0).isValidChar := hleaf rfl
    exact List.forall_mem_singleton.2 hcode
  · obtain rfl := Except.ok.inj h
    exact List.forall_mem_singleton.2 trivial
  · simp at h

theorem sound_joined {operator : String} {left right : Expr}
    (hop : (precedence? operator).isSome = true) (hl : ∀ n ∈ left.nodes, n.Sound N)
    (hr : ∀ n ∈ right.nodes, n.Sound N) : ∀ n ∈ (joined operator left right).nodes, n.Sound N := by
  rw [Expr.forall_mem_nodes]
  unfold joined
  split_ifs with h
  · exact ⟨h, by simpa [Expr.children] using ⟨hl, hr⟩⟩
  · exact ⟨⟨hop, h⟩, by simpa [Expr.children] using ⟨hl, hr⟩⟩

theorem sound_ofChain {first : Expr} {ls : List Link} (h : ∀ n ∈ first.nodes, n.Sound N)
    (hls : ∀ l ∈ ls, (precedence? l.operator).isSome = true ∧ ∀ n ∈ l.operand.nodes, n.Sound N) :
    ∀ n ∈ (ofChain first ls).nodes, n.Sound N := by
  induction first, ls using ofChain_induction with
  | nil => exact h
  | cons first l front back right tree hright htree =>
    simp only [List.forall_mem_cons, List.forall_mem_append] at hls
    obtain ⟨hl, hfront, hback⟩ := hls
    exact htree (sound_joined hl.1 h (hright hl.2 hfront)) hback

/-- What a phrase stands for is sound, the body of a closure a block. -/
def Phrase.Sound (N : String → Prop) : Phrase → Prop
  | unit o | atom o | expression o => ∀ e ∈ o, ∀ n ∈ e.nodes, n.Sound N
  | block o => ∀ e ∈ o, (∃ es, e = .block es) ∧ ∀ n ∈ e.nodes, n.Sound N
  | called callee e => (∀ n ∈ callee.nodes, n.Sound N) → ∀ n ∈ e.nodes, n.Sound N
  | links _ ls =>
    ∀ l ∈ ls, (precedence? l.operator).isSome = true ∧ ∀ n ∈ l.operand.nodes, n.Sound N
  | elements _ _ os | items _ _ os | statements os =>
    ∀ e ∈ os.reduceOption, ∀ n ∈ e.nodes, n.Sound N

theorem sound_reduceOption_cons {o : Option Expr} {os : List (Option Expr)}
    (ho : ∀ e ∈ o, ∀ n ∈ e.nodes, n.Sound N)
    (hos : ∀ e ∈ os.reduceOption, ∀ n ∈ e.nodes, n.Sound N) :
    ∀ e ∈ (o :: os).reduceOption, ∀ n ∈ e.nodes, n.Sound N := by
  cases o with
  | none => exact hos
  | some e =>
    rw [List.reduceOption_cons_of_some, List.forall_mem_cons]
    exact ⟨ho e rfl, hos⟩

theorem sound_of_readsParameters {params : List Parameter} {c c' : Cursor} (hc : c.Legible N)
    (h : ReadsParameters params c c') : (∀ p ∈ params, p.Legible) ∧ c'.Legible N := by
  have hs := Spells.of_readsParameters h
  exact ⟨Parameter.legible_of_yield (hc.legible_of_spells hs), hc.of_spells hs⟩

/-- What is read from legible words is sound, and legible words lie ahead again. -/
theorem Reads.sound {φ : Phrase} {c c' : Cursor} (h : Reads φ c c')
    (hN : ∀ s, isName s = true → N s) (hc : c.Legible N) : φ.Sound N ∧ c'.Legible N := by
  have hroot : ∀ {e : Expr}, e.Sound N → (∀ x ∈ e.children, ∀ n ∈ x.nodes, n.Sound N) →
      ∀ y ∈ some e, ∀ n ∈ y.nodes, n.Sound N := by
    rintro e he hx y ⟨⟩
    exact Expr.forall_mem_nodes.2 ⟨he, hx⟩
  induction h with
  | external hk hn hps =>
    have hname := hN _ (hc.next.current.name hn)
    have hs := Spells.parameters hps
    have hparams := Parameter.legible_of_yield (hc.next.next.legible_of_spells hs)
    exact ⟨hroot ⟨hname, hparams⟩ (by simp [Expr.children]), hc.next.next.of_spells hs⟩
  | function hk hps _ ih =>
    obtain ⟨hparams, hc₁⟩ := sound_of_readsParameters hc.next.next hps
    obtain ⟨hbody, hc'⟩ := ih hc₁
    exact ⟨hroot ⟨hc.name hk, hparams⟩ (by simpa [Expr.children] using hbody _ rfl), hc'⟩
  | bodiless hk hps _ ih =>
    obtain ⟨hparams, hc₁⟩ := sound_of_readsParameters hc.next.next hps
    exact ⟨hroot ⟨hc.name hk, hparams⟩ (by simp [Expr.children]), (ih hc₁).2⟩
  | ifThen hk _ _ helse ihc iht =>
    obtain ⟨hcond, hc₁⟩ := ihc hc.next
    obtain ⟨hthen, hc'⟩ := iht hc₁
    exact ⟨hroot trivial (by simpa [Expr.children] using ⟨hcond _ rfl, hthen _ rfl⟩), hc'⟩
  | ifThenElse hk _ _ helse _ ihc iht ihe =>
    obtain ⟨hcond, hc₁⟩ := ihc hc.next
    obtain ⟨hthen, hc₂⟩ := iht hc₁
    obtain ⟨hel, hc'⟩ := ihe hc₂.next
    refine ⟨hroot trivial ?_, hc'⟩
    simpa [Expr.children] using ⟨hcond _ rfl, hthen _ rfl, hel _ rfl⟩
  | ifThenAbsent hk _ _ helse _ ihc iht ihe =>
    obtain ⟨hcond, hc₁⟩ := ihc hc.next
    obtain ⟨hthen, hc₂⟩ := iht hc₁
    refine ⟨hroot trivial ?_, (ihe hc₂.next).2⟩
    simpa [Expr.children] using ⟨hcond _ rfl, hthen _ rfl⟩
  | @closure c c₁ c' params b hk hps _ ih =>
    have hs := Spells.names hps
    obtain ⟨hb, hc'⟩ := ih (hc.next.of_spells hs)
    refine ⟨?_, hc'⟩
    cases b with
    | none => rintro e ⟨⟩
    | some body =>
      obtain ⟨hblock, hnodes⟩ := hb body rfl
      have hparams : ∀ p ∈ params, isName p = true := fun p hp =>
        (hc.next.legible_of_spells hs (.name p) (List.mem_map_of_mem hp)).name rfl
      exact hroot ⟨hparams, hblock⟩ (by simpa [Expr.children] using hnodes)
  | boolean hk => exact ⟨hroot trivial (by simp [Expr.children]), hc.next⟩
  | grouping hopen _ hclose ih =>
    obtain ⟨ho, hc₁⟩ := ih hc.next
    exact ⟨ho, hc₁.next⟩
  | braces _ ih =>
    obtain ⟨ho, hc'⟩ := ih hc
    exact ⟨fun e he => (ho e he).2, hc'⟩
  | terminal h =>
    refine ⟨?_, hc.next⟩
    rintro e ⟨⟩
    exact sound_of_terminalValue hc h
  | @block c c₁ os hopen _ hclose ih =>
    obtain ⟨hos, hc₁⟩ := ih hc.next
    refine ⟨?_, hc₁.next⟩
    intro e he
    unfold blockOf at he
    split_ifs at he
    · cases he
    · cases he
      have hsound : Expr.Sound N (.block os.reduceOption) := trivial
      exact ⟨⟨_, rfl⟩, hroot hsound hos _ rfl⟩
  | uncalled => exact ⟨id, hc⟩
  | @call c c₁ callee as hopen _ hclose ih =>
    obtain ⟨has, hc₁⟩ := ih hc.next
    have hsound : Expr.Sound N (.call callee as) := trivial
    rw [Phrase.Sound, reduceOption_map_some] at has
    refine ⟨fun hcallee => hroot hsound ?_ _ rfl, hc₁.next⟩
    rw [Expr.children, List.forall_mem_cons]
    exact ⟨hcallee, has⟩
  | atom _ _ ihu ihc =>
    obtain ⟨he, hc₁⟩ := ihu hc
    obtain ⟨he', hc'⟩ := ihc hc₁
    refine ⟨?_, hc'⟩
    rintro e ⟨⟩
    exact he' (he _ rfl)
  | absentAtom _ _ ih => exact ⟨by simp [Phrase.Sound], (ih hc).2⟩
  | noOperator => exact ⟨by simp [Phrase.Sound], hc⟩
  | weakOperator => exact ⟨by simp [Phrase.Sound], hc⟩
  | link hk hp hs _ _ ihe ihl =>
    obtain ⟨he, hc₁⟩ := ihe hc.next
    obtain ⟨hls, hc'⟩ := ihl hc₁
    refine ⟨?_, hc'⟩
    rw [Phrase.Sound, List.forall_mem_cons]
    exact ⟨⟨by simp [hp], he _ rfl⟩, hls⟩
  | expression _ _ _ iha ihl ihc =>
    obtain ⟨hfirst, hc₁⟩ := iha hc
    obtain ⟨hls, hc₂⟩ := ihl hc₁
    obtain ⟨he, hc'⟩ := ihc hc₂
    refine ⟨?_, hc'⟩
    rintro e ⟨⟩
    exact he (sound_ofChain (hfirst _ rfl) hls)
  | absent _ _ _ ih => exact ⟨by simp [Phrase.Sound], (ih hc).2⟩
  | noElements => exact ⟨by simp [Phrase.Sound], hc⟩
  | elements _ _ _ iho ihos =>
    obtain ⟨ho, hc₁⟩ := iho hc
    obtain ⟨hos, hc'⟩ := ihos hc₁
    exact ⟨sound_reduceOption_cons ho hos, hc'⟩
  | noItems => exact ⟨by simp [Phrase.Sound], hc⟩
  | trailing => exact ⟨by simp [Phrase.Sound], hc.next⟩
  | items _ _ _ _ _ iho ihos =>
    obtain ⟨ho, hc₁⟩ := iho hc.next
    obtain ⟨hos, hc'⟩ := ihos hc₁
    exact ⟨sound_reduceOption_cons ho hos, hc'⟩
  | noStatements => exact ⟨by simp [Phrase.Sound], hc⟩
  | lastStatement _ _ _ ih =>
    obtain ⟨ho, hc'⟩ := ih hc
    exact ⟨sound_reduceOption_cons ho (by simp), hc'⟩
  | statements _ _ _ _ iho ihos =>
    obtain ⟨ho, hc₁⟩ := iho hc
    obtain ⟨hos, hc'⟩ := ihos hc₁.next
    exact ⟨sound_reduceOption_cons ho hos, hc'⟩

end Parts

/-- What is read from the tokens of a source is sound for what is known of every word
behind a `def`. -/
theorem sound_of_ofTokens {N : String → Prop} {source file streamFile : String}
    {tokens : List Token} {p : Program} (hN : ∀ s, isName s = true → N s)
    (ht : tokenize source file = .ok tokens)
    (hdef : tokens.IsChain fun t u => t.isWord .keyword "def" = true → N u.value)
    (hp : Program.ofTokens tokens streamFile = .ok p) :
    ∀ e ∈ p.body, ∀ n ∈ e.nodes, n.Sound N := by
  have hwords : ∀ t ∈ tokens, Word.Legible t.word := fun t => legible_of_mem_tokenize ht
  obtain ⟨-, htokens⟩ := tokenize_eq_ok.1 ht
  generalize placed file 0 (lexemes source.toList).1 = ts at htokens
  generalize hend : endToken (width source.toList) file = t at htokens
  replace hend : t.isEof = true := hend ▸ rfl
  subst htokens
  have hc : Cursor.Legible N ⟨ts, t.value, t.span⟩ := by
    rw [← Cursor.ofTokens_append hend]
    exact ⟨by rwa [Cursor.tokens_ofTokens hend], by rwa [Cursor.tokens_ofTokens hend]⟩
  obtain ⟨c', hrun⟩ := (ofTokens_eq_ok_iff hend).1 hp
  obtain ⟨os, hos, rfl⟩ := program_eq_ok_iff.1 hrun
  exact (hos.sound hN hc).1

/-- What is read from the tokens of a source is legible if every `def` in it is followed
by a name. -/
theorem legible_of_ofTokens {source file streamFile : String} {tokens : List Token} {p : Program}
    (ht : tokenize source file = .ok tokens)
    (hdef : tokens.IsChain fun t u => t.isWord .keyword "def" = true → u.kind = .identifier)
    (hp : Program.ofTokens tokens streamFile = .ok p) : ∀ e ∈ p.body, ∀ n ∈ e.nodes, n.Legible := by
  have hnames : tokens.IsChain fun t u => t.isWord .keyword "def" = true → isName u.value = true :=
    hdef.imp_of_mem_imp fun t u _ hu h hdef => (legible_of_mem_tokenize ht hu).name (h hdef)
  exact fun e he n hn =>
    Expr.legible_of_sound (sound_of_ofTokens (fun _ => id) ht hnames hp e he n hn)

end ExprLang
