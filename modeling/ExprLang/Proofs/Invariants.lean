import ExprLang.Proofs.Legibility

/-!
# Invariants of trees

What holds of every node of every tree that is read from a source. Only the name of a
definition is free, as it may be any token.
-/
namespace ExprLang

/-- A word of ASCII letters, digits and underscores that no digit begins, and none of the
keywords. -/
def ProperName (s : String) : Prop :=
  (∃ c cs, s.toList = c :: cs ∧ isNameStart c = true ∧ ∀ x ∈ cs, isNameChar x = true) ∧
    s ∉ keywords

theorem properName_iff {s : String} : ProperName s ↔ isName s = true := by
  have hword : isWordText s = true ↔
      ∃ c cs, s.toList = c :: cs ∧ isNameStart c = true ∧ ∀ x ∈ cs, isNameChar x = true := by
    unfold isWordText
    split
    · next h => simp [h]
    · next c cs h => simp [h]
  have hkeyword : isKeyword s = false ↔ s ∉ keywords := by simp [isKeyword]
  rw [ProperName, isName, Bool.and_eq_true, Bool.not_eq_true', hword, hkeyword]

namespace Expr

/-- A node as it may come from a source. Numbers have no sign and codes are those of
characters, operators are in the table, and the body of a closure is a block. -/
def Proper : Expr → Prop
  | number value => 0 ≤ value.toInt ∧ value.toInt ≤ 2147483647
  | character code => code.isValidChar
  | symbol name => ProperName name
  | assignment operator _ _ => operator = "="
  | binary operator _ _ => operator ∈ precedences.map Prod.fst ∧ operator ≠ "="
  | function _ params _ | external _ params =>
    ∀ p ∈ params, ProperName p.type ∧ ∀ name ∈ p.name, ProperName name
  | closure params body => (∀ p ∈ params, ProperName p) ∧ ∃ es, body = block es
  | string _ | boolean _ | ifThen .. | ifThenElse .. | call .. | block _ => True

/-- The operators of known strength are those in the table. -/
theorem mem_precedences_of_isSome {operator : String}
    (h : (precedence? operator).isSome = true) : operator ∈ precedences.map Prod.fst := by
  obtain ⟨strength, hs⟩ := Option.isSome_iff_exists.1 h
  obtain ⟨front, back, heq, -⟩ := List.lookup_eq_some_iff.1 hs
  simp [heq]

theorem proper_of_sound {N : String → Prop} {e : Expr} (h : e.Sound N) : e.Proper := by
  cases e with
  | number value =>
    have hlt := value.toInt_lt
    exact ⟨h, by omega⟩
  | binary operator left right => exact ⟨mem_precedences_of_isSome h.1, h.2⟩
  | function | external =>
    intro p hp
    obtain ⟨htype, hname⟩ := h.2 p hp
    exact ⟨properName_iff.2 htype, fun name hn => properName_iff.2 (hname name hn)⟩
  | closure params body => exact ⟨fun p hp => properName_iff.2 (h.1 p hp), h.2⟩
  | symbol name => exact properName_iff.2 h
  | assignment | character => exact h
  | _ => trivial

end Expr

/-- Every node of a program that is read from a source is proper, at any depth. -/
theorem proper_of_ofSource {source file streamFile : String} {p : Program}
    (h : Program.ofSource source file streamFile = .ok p) :
    ∀ e ∈ p.body, ∀ n ∈ e.nodes, n.Proper := by
  obtain ⟨tokens, ht, hp⟩ := Program.ofSource_eq_ok.1 h
  have hnames : tokens.IsChain fun t u => t.isWord .keyword "def" = true → True :=
    (List.isChain_isInfix tokens).imp fun _ _ _ _ => trivial
  exact fun e he n hn =>
    Expr.proper_of_sound (sound_of_ofTokens (fun _ _ => trivial) ht hnames hp e he n hn)

/-- A definition whose name is a brace, around a closure, and the largest number. -/
theorem proper_of_ofSource_brace :
    let source := "def \x7d (int x, _t) cls(y) \x7b x = y * 2147483647; '\\xe9' != 'é' \x7d"
    let p : Program := ⟨[.function "\x7d" [⟨"int", some "x"⟩, ⟨"_t", none⟩] (.closure ["y"] (.block
      [.assignment "=" (.symbol "x") (.binary "*" (.symbol "y") (.number 2147483647)),
        .binary "!=" (.character 0xe9) (.character 0xe9)]))]⟩
    Program.ofSource source "s" "s" = .ok p ∧ ∀ e ∈ p.body, ∀ n ∈ e.nodes, n.Proper := by
  intro source p
  have h : Program.ofSource source "s" "s" = .ok p := by decide +kernel
  exact ⟨h, proper_of_ofSource h⟩

end ExprLang
