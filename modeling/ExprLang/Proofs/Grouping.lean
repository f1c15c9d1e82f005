import ExprLang.Proofs.Chains
import ExprLang.Proofs.Reading

/-!
# Groups

An expression may be read in any number of parentheses. Here these are counted, as are
the argument lists behind it, while the strength of operators is left out: any operator
joins what stands before and behind it. This says less than a reading, but enough to
compare one with the places where an expression was written.
-/
namespace ExprLang

namespace Cursor

/-- Marks of one kind are passed, one right behind the other. -/
inductive Marks (m : Char) : ℕ → Cursor → Cursor → Prop
  | none (c : Cursor) : Marks m 0 c c
  | mark {n : ℕ} {c c' : Cursor} (hm : c.current.isMark m = true) (h : Marks m n c.next c') :
    Marks m (n + 1) c c'

namespace Marks

variable {m : Char} {j k n : ℕ} {c d d' : Cursor}

theorem snoc (h : Marks m n c d) (hm : d.current.isMark m = true) : Marks m (n + 1) c d.next := by
  induction h with
  | none => exact .mark hm (.none _)
  | mark hm' _ ih => exact .mark hm' (ih hm)

/-- As many marks lead to the same place. -/
theorem eq_of_same (h : Marks m n c d) (h' : Marks m n c d') : d = d' := by
  induction h with
  | none =>
    cases h' with
    | none => rfl
  | mark _ _ ih =>
    cases h' with
    | mark _ h' => exact ih h'

/-- Marks are counted by what they lead to, if it is no more of them. -/
theorem unique (h : Marks m j c d) (h' : Marks m k c d') (hd : d.current.isMark m = false)
    (hd' : d'.current.isMark m = false) : j = k ∧ d = d' := by
  induction h generalizing k with
  | none =>
    cases h' with
    | none => exact ⟨rfl, rfl⟩
    | mark hm => simp [hd] at hm
  | mark hm _ ih =>
    cases h' with
    | none => simp [hd'] at hm
    | mark _ h' =>
      obtain ⟨rfl, rfl⟩ := ih h' hd
      exact ⟨rfl, rfl⟩

end Marks

end Cursor

/-- An expression stands between two cursors in `n` groups, with `k` places for argument
lists behind what is not in a group. A place is left empty only if no list is there. -/
inductive Stands : ℕ → ℕ → Expr → Cursor → Cursor → Prop
  | bare {e : Expr} {c c' : Cursor} (hm : c.current.isMark '(' = false)
    (h : Reads (.unit (some e)) c c') : Stands 0 0 e c c'
  | grouped {n : ℕ} {e : Expr} {c c' : Cursor} (hopen : c.current.isMark '(' = true)
    (h : Stands n 2 e c.next c') (hclose : c'.current.isMark ')' = true) :
    Stands (n + 1) 0 e c c'.next
  | joined {i j k : ℕ} {operator : String} {left right : Expr} {c c₁ c' : Cursor}
    (hl : Stands i 1 left c c₁) (hk : c₁.current.kind = .operator)
    (hv : c₁.current.value = operator) (hr : Stands j 1 right c₁.next c') :
    Stands 0 k (joined operator left right) c c'
  | uncalled {n k : ℕ} {e : Expr} {c c' : Cursor} (h : Stands n k e c c')
    (hm : c'.current.isMark '(' = false) : Stands n (k + 1) e c c'
  | call {n k : ℕ} {callee : Expr} {as : List Expr} {c c₁ c' : Cursor}
    (h : Stands n k callee c c₁) (hopen : c₁.current.isMark '(' = true)
    (has : Reads (.elements ')' ',' (as.map some)) c₁.next c')
    (hclose : c'.current.isMark ')' = true) : Stands 0 (k + 1) (.call callee as) c c'.next

/-- Operators and operands stand one behind the other. -/
def Linked : List Link → Cursor → Cursor → Prop
  | [], c, c' => c = c'
  | l :: ls, c, c' => c.current.kind = .operator ∧ c.current.value = l.operator ∧
    ∃ n c₁, Stands n 1 l.operand c.next c₁ ∧ Linked ls c₁ c'

theorem linked_append {front back : List Link} {c c' : Cursor} :
    Linked (front ++ back) c c' ↔ ∃ c₁, Linked front c c₁ ∧ Linked back c₁ c' := by
  induction front generalizing c with
  | nil => simp [Linked]
  | cons l front ih =>
    simp only [List.cons_append, Linked, ih]
    constructor
    · rintro ⟨hk, hv, n, c₂, hl, c₁, hfront, hback⟩
      exact ⟨c₁, ⟨hk, hv, n, c₂, hl, hfront⟩, hback⟩
    · rintro ⟨c₁, ⟨hk, hv, n, c₂, hl, hfront⟩, hback⟩
      exact ⟨hk, hv, n, c₂, hl, c₁, hfront, hback⟩

/-- The tree of a chain stands where its operands do. -/
theorem Stands.ofChain {first : Expr} {ls : List Link} {n : ℕ} {c c₁ c' : Cursor}
    (h : Stands n 1 first c c₁) (hls : Linked ls c₁ c') :
    ∃ n', Stands n' 1 (ofChain first ls) c c' := by
  induction first, ls using ofChain_induction generalizing n c c₁ c' with
  | nil =>
    obtain rfl : c₁ = c' := hls
    exact ⟨n, h⟩
  | cons first l front back right tree hright htree =>
    obtain ⟨hk, hv, m, c₂, hl, hls⟩ := hls
    obtain ⟨c₃, hfront, hback⟩ := linked_append.1 hls
    obtain ⟨j, hr⟩ := hright hl hfront
    exact htree (.joined h hk hv hr) hback

/-- What a phrase stands for stands where the phrase is read. -/
def Phrase.Stands : Phrase → Cursor → Cursor → Prop
  | unit o, c, c' => ∀ e ∈ o, ∃ n, ExprLang.Stands n 0 e c c'
  | atom o, c, c' => ∀ e ∈ o, ∃ n, ExprLang.Stands n 1 e c c'
  | expression o, c, c' => ∀ e ∈ o, ∃ n, ExprLang.Stands n 2 e c c'
  | called callee e, c, c' => ∀ {n k : ℕ} {b : Cursor}, ExprLang.Stands n k callee b c →
    ∃ n', ExprLang.Stands n' (k + 1) e b c'
  | links _ ls, c, c' => Linked ls c c'
  | block _, _, _ | elements .., _, _ | items .., _, _ | statements _, _, _ => True

theorem Reads.stands {φ : Phrase} {c c' : Cursor} (h : Reads φ c c') : φ.Stands c c' := by
  have hbare : ∀ {e : Expr} {c c' : Cursor}, c.current.isMark '(' = false →
      Reads (.unit (some e)) c c' → (Phrase.unit (some e)).Stands c c' := by
    rintro e c c' hm h _ ⟨⟩
    exact ⟨0, .bare hm h⟩
  have hkeyword : ∀ {c : Cursor} {word : String}, c.current.isWord .keyword word = true →
      c.current.isMark '(' = false := by
    intro c word hk
    simp [Token.isMark, (Token.isWord_iff.1 hk).1]
  induction h with
  | external hk hn hps => exact hbare (hkeyword hk) (.external hk hn hps)
  | function hk hps hb => exact hbare (hkeyword hk) (.function hk hps hb)
  | bodiless hk hps hb => exact hbare (hkeyword hk) (.bodiless hk hps hb)
  | ifThen hk hc ht helse => exact hbare (hkeyword hk) (.ifThen hk hc ht helse)
  | ifThenElse hk hc ht helse he => exact hbare (hkeyword hk) (.ifThenElse hk hc ht helse he)
  | ifThenAbsent hk hc ht helse he => exact hbare (hkeyword hk) (.ifThenAbsent hk hc ht helse he)
  | @closure _ _ _ params b hk hps hb =>
    cases b with
    | none => rintro e ⟨⟩
    | some body => exact hbare (hkeyword hk) (.closure hk hps hb)
  | boolean hk => exact hbare (hk.elim hkeyword hkeyword) (.boolean hk)
  | grouping hopen _ hclose ih =>
    intro e he
    obtain ⟨n, hn⟩ := ih e he
    exact ⟨n + 1, .grouped hopen hn hclose⟩
  | @braces _ _ o h =>
    have hm : ∀ {c c' : Cursor}, Reads (.block o) c c' → c.current.isMark '(' = false := by
      intro c c' h
      cases h with
      | block hopen => simp [Token.isMark, (Token.isMark_iff.1 hopen).2]
    cases o with
    | none => rintro e ⟨⟩
    | some e => exact hbare (hm h) (.braces h)
  | terminal h =>
    refine hbare ?_ (.terminal h)
    unfold Rule.terminalValue at h
    split at h <;> simp_all [Token.isMark]
  | atom hu _ ihu ihc =>
    rintro e ⟨⟩
    obtain ⟨n, hn⟩ := ihu _ rfl
    exact ihc hn
  | absentAtom => rintro e ⟨⟩
  | uncalled hm => exact fun h => ⟨_, .uncalled h hm⟩
  | call hopen has hclose => exact fun h => ⟨_, .call h hopen has hclose⟩
  | noOperator | weakOperator => rfl
  | link hk _ _ _ _ ihe ihl =>
    obtain ⟨n, hn⟩ := ihe _ rfl
    exact ⟨hk, rfl, n, _, hn, ihl⟩
  | expression _ _ _ iha ihl ihc =>
    rintro e ⟨⟩
    obtain ⟨n, hn⟩ := iha _ rfl
    obtain ⟨n', hn'⟩ := hn.ofChain ihl
    exact ihc hn'
  | absent => rintro e ⟨⟩
  | block | noElements | elements | noItems | trailing | items | noStatements | lastStatement
  | statements => trivial

/-- How an expression without parentheses around it is read from its parts. -/
def Expr.ReadsParts : Expr → Cursor → Cursor → Prop
  | ifThen condition thenBranch, c, c' => ∃ c₁ c₂, Reads (.expression (some condition)) c.next c₁ ∧
    Reads (.expression (some thenBranch)) c₁ c₂ ∧
    (c₂.current.isWord .keyword "else" = false → c₂ = c')
  | ifThenElse condition thenBranch elseBranch, c, c' => ∃ c₁ c₂,
    Reads (.expression (some condition)) c.next c₁ ∧
    Reads (.expression (some thenBranch)) c₁ c₂ ∧
    Reads (.expression (some elseBranch)) c₂.next c'
  | function _ params body, c, c' => ∃ c₁, ReadsParameters params c.next.next c₁ ∧
    Reads (.expression (some body)) c₁ c'
  | closure params body, c, c' => ∃ c₁,
    Parser.delimited '(' ')' ',' (Parser.expectName .variable) c.next = .ok params c₁ ∧
    Reads (.block (some body)) c₁ c'
  | block body, c, c' => Reads (.block (some (.block body))) c c'
  | assignment .., _, _ | binary .., _, _ | call .., _, _ => False
  | _, _, _ => True

theorem Reads.parts {o : Option Expr} {c c' : Cursor} (h : Reads (.unit o) c c')
    (hm : c.current.isMark '(' = false) : ∀ e ∈ o, e.ReadsParts c c' := by
  intro e he
  cases h with
  | external | boolean =>
    cases he
    trivial
  | function _ hps hb =>
    cases he
    exact ⟨_, hps, hb⟩
  | bodiless =>
    cases he
    trivial
  | ifThen _ hc ht helse =>
    cases he
    exact ⟨_, _, hc, ht, fun _ => rfl⟩
  | ifThenElse _ hc ht _ hel =>
    cases he
    exact ⟨_, _, hc, ht, hel⟩
  | ifThenAbsent _ hc ht helse =>
    cases he
    exact ⟨_, _, hc, ht, fun h => by simp [h] at helse⟩
  | closure _ hps hb =>
    obtain ⟨body, rfl, rfl⟩ := Option.map_eq_some_iff.1 he
    exact ⟨_, hps, hb⟩
  | grouping hopen => simp [hm] at hopen
  | braces h =>
    cases h with
    | block hopen hel hclose =>
      have hblock := he
      unfold blockOf at he
      split_ifs at he
      · cases he
      · cases he
        have hread := Reads.block hopen hel hclose
        rwa [Option.mem_def.1 hblock] at hread
  | terminal h =>
    cases he
    unfold Rule.terminalValue at h
    split at h
    · obtain rfl := Except.ok.inj h
      trivial
    · split at h
      · obtain rfl := Except.ok.inj h
        trivial
      · simp at h
    · obtain rfl := Except.ok.inj h
      trivial
    · obtain rfl := Except.ok.inj h
      trivial
    · simp at h

/-- Empty braces have no value, nor has a closure around them. -/
inductive Valueless : Cursor → Prop
  | braces {c : Cursor} (hopen : c.current.isMark '\x7b' = true)
    (hclose : c.next.current.isMark '\x7d' = true) : Valueless c
  | closure {c c₁ : Cursor} {params : List String} (hk : c.current.isWord .keyword "cls" = true)
    (hps : Parser.delimited '(' ')' ',' (Parser.expectName .variable) c.next = .ok params c₁)
    (h : Valueless c₁) : Valueless c

theorem Reads.valueless_of_block {c c' : Cursor} (h : Reads (.block none) c c') :
    Valueless c := by
  generalize ho : (none : Option Expr) = o at h
  cases h with
  | block hopen hel hclose =>
    cases hel with
    | noElements => exact .braces hopen hclose
    | elements => simp [blockOf] at ho

/-- What has no value has none in parentheses either. -/
theorem Reads.exists_valueless {c c' : Cursor} (h : Reads (.expression none) c c') :
    ∃ n d, Cursor.Marks '(' n c d ∧ Valueless d := by
  generalize hφ : Phrase.expression none = φ at h
  replace hφ : φ = .unit none ∨ φ = .atom none ∨ φ = .expression none := .inr (.inr hφ.symm)
  induction h with
  | @closure _ _ _ params b hk hps hb =>
    obtain rfl : b = none := by simpa using hφ
    exact ⟨0, _, .none _, .closure hk hps hb.valueless_of_block⟩
  | grouping hopen _ _ ih =>
    obtain ⟨n, d, hn, hd⟩ := ih (.inr (.inr (by simpa using hφ)))
    exact ⟨n + 1, d, .mark hopen hn, hd⟩
  | braces hb =>
    obtain rfl := by simpa using hφ
    exact ⟨0, _, .none _, hb.valueless_of_block⟩
  | absentAtom _ _ ih => exact ih (.inl rfl)
  | absent _ _ _ ih => exact ih (.inr (.inl rfl))
  | _ => simp at hφ

end ExprLang
