import ExprLang.Proofs.Printable

/-!
# Round trips

A printable tree with legible leaves is read back from its text. As an operand a unit is
called once at most, as an expression once more, and each construct is read to just where
its spelling ends.
-/
namespace ExprLang

open ExprLang.Parser Cursor

/-- An expression is read as a unit and up to `k` argument lists behind it. -/
def ReadsCalled : ℕ → Expr → Cursor → Cursor → Prop
  | 0, e, c, c' => Reads (.unit (some e)) c c'
  | k + 1, e, c, c' => ∃ f c₁, ReadsCalled k f c c₁ ∧ Reads (.called f e) c₁ c'

namespace ReadsCalled

variable {e : Expr} {c c' : Cursor} {k : ℕ}

/-- Where no argument list follows, there may as well be more of them. -/
theorem lift (h : ReadsCalled k e c c') {j : ℕ} (hkj : k ≤ j)
    (hm : c'.current.isMark '(' = false) : ReadsCalled j e c c' := by
  induction hkj with
  | refl => exact h
  | step _ ih => exact ⟨e, c', ih, .uncalled hm⟩

theorem atom_iff : ReadsCalled 1 e c c' ↔ Reads (.atom (some e)) c c' := by
  constructor
  · intro ⟨f, c₁, hu, hc⟩
    exact .atom hu hc
  · intro h
    cases h with
    | atom hu hc => exact ⟨_, _, hu, hc⟩

theorem expression (h : ReadsCalled 2 e c c') (hop : c'.current.kind ≠ .operator) :
    Reads (.expression (some e)) c c' := by
  obtain ⟨f, c₁, ha, hc⟩ := h
  have hop₁ : c₁.current.kind ≠ .operator := by
    cases hc with
    | uncalled => exact hop
    | call hopen =>
      rw [(Token.isMark_iff.1 hopen).1]
      simp
  exact .expression (atom_iff.1 ha) (.noOperator hop₁) hc

end ReadsCalled

namespace Reads

variable {e : Expr} {ws rest : List Word}

theorem expression_of_unit {c c' : Cursor} (h : Reads (.unit (some e)) c c')
    (hop : c'.current.kind ≠ .operator) (hm : c'.current.isMark '(' = false) :
    Reads (.expression (some e)) c c' :=
  (ReadsCalled.lift (k := 0) h (Nat.zero_le 2) hm).expression hop

theorem group (h : Reads (.expression (some e)) (ofWords ws) (ofWords (.mark ')' :: rest))) :
    Reads (.unit (some e)) (ofWords (.mark '(' :: ws)) (ofWords rest) := by
  have hopen : (ofWords (.mark '(' :: ws)).current.isMark '(' = true := by simp
  have hclose : (ofWords (.mark ')' :: rest)).current.isMark ')' = true := by simp
  exact .grouping hopen h hclose

/-- What begins with a brace is a block. -/
theorem block_of_unit {o : Option Expr} {c' : Cursor}
    (h : Reads (.unit o) (ofWords (.mark '\x7b' :: ws)) c') :
    Reads (.block o) (ofWords (.mark '\x7b' :: ws)) c' := by
  cases h with
  | braces h => exact h
  | grouping hopen => simp at hopen
  | terminal h => simp [Rule.terminalValue] at h
  | boolean hk => simp [Word.mark] at hk
  | external hk | function hk | bodiless hk | ifThen hk | ifThenElse hk | ifThenAbsent hk
  | closure hk => simp [Word.mark] at hk

end Reads

theorem pos_of_precedence? {operator : String} {strength : ℕ}
    (h : precedence? operator = some strength) : 0 < strength := by
  have hall : ∀ o ∈ precedences, 0 < o.2 := by decide
  obtain ⟨l, l', heq, -⟩ := List.lookup_eq_some_iff.1 h
  exact hall (operator, strength) (by simp [heq])

/-- An expression is read from its spelling: as an operand whatever comes after it, and
as it stands unless a definition would take that in. -/
structure ReadBack (e : Expr) : Prop where
  operand : ∀ rest, ReadsCalled e.callDepth e
    (ofWords (e.operandSpelling e.spelling ++ rest)) (ofWords rest)
  plain : ∀ rest, (e.isDefinition = true → (ofWords rest).current.kind ≠ .operator ∧
      (ofWords rest).current.isMark '(' = false) →
    ReadsCalled e.callDepth e (ofWords (e.spelling ++ rest)) (ofWords rest)

namespace ReadBack

variable {e : Expr} {rest : List Word}

theorem expression (h : ReadBack e) (hd : e.callDepth ≤ 2)
    (hop : (ofWords rest).current.kind ≠ .operator)
    (hm : (ofWords rest).current.isMark '(' = true → e.callDepth = 2) :
    Reads (.expression (some e)) (ofWords (e.spelling ++ rest)) (ofWords rest) := by
  by_cases hopen : (ofWords rest).current.isMark '(' = true
  · have hdepth := hm hopen
    have hdef : ¬e.isDefinition = true := by
      intro he
      rw [Expr.callDepth_of_isDefinition he] at hdepth
      omega
    have hr := h.plain rest fun he => absurd he hdef
    rw [hdepth] at hr
    exact hr.expression hop
  · have hnone : (ofWords rest).current.isMark '(' = false := by simpa using hopen
    exact ((h.plain rest fun _ => ⟨hop, hnone⟩).lift hd hnone).expression hop

theorem expression_mark {m : Char} (h : ReadBack e) (hd : e.callDepth ≤ 2) (hm : m ≠ '(') :
    Reads (.expression (some e)) (ofWords (e.spelling ++ .mark m :: rest))
      (ofWords (.mark m :: rest)) :=
  h.expression hd (by simp) (by simp [hm])

/-- Units other than definitions end by themselves. -/
theorem of_unit (hd : e.callDepth = 0) (hdef : e.isDefinition = false)
    (h : ∀ rest, Reads (.unit (some e)) (ofWords (e.spelling ++ rest)) (ofWords rest)) :
    ReadBack e where
  operand rest := by
    rw [hd, Expr.operandSpelling, hdef]
    exact h rest
  plain rest _ := by
    rw [hd]
    exact h rest

theorem readsEach {es : List Expr} {close separator : Char}
    (hclose : close ≠ '(' ∧ close ≠ '\x7b') (hsep : separator ≠ '(') (hne : separator ≠ close)
    (h : ∀ e ∈ es, ReadBack e ∧ e.callDepth ≤ 2) :
    ReadsEach Parser.expression close separator Expr.spelling some es where
  follows _ := follows_expression .eq
  ne := hne
  opens e _ ws := by
    obtain ⟨w, ws', hw, hb⟩ := e.exists_spelling_eq
    rw [hw, Closes]
    rintro (heof | hm)
    · exact hb.ne_eof (by simpa using heof)
    · rcases hb.isMark close hm with rfl | rfl
      · exact hclose.1 rfl
      · exact hclose.2 rfl
  reads e he m ws hm := by
    have hopen : m ≠ '(' := by
      rcases hm with rfl | rfl
      · exact hsep
      · exact hclose.1
    exact ((h e he).1.expression_mark (h e he).2 hopen).run

theorem operation {left right : Expr} {operator : String} {strength : ℕ}
    (hop : precedence? operator = some strength) (hl : ReadBack left) (hr : ReadBack right)
    (hdl : left.callDepth ≤ 1) (hdr : right.callDepth ≤ 1) (rest : List Word) :
    Reads (.unit (some (joined operator left right)))
      (ofWords (.mark '(' :: (left.operandSpelling left.spelling ++
        .operator operator :: (right.spelling ++ .mark ')' :: rest)))) (ofWords rest) := by
  have hleft : Reads (.atom (some left)) (ofWords (left.operandSpelling left.spelling ++
      .operator operator :: (right.spelling ++ .mark ')' :: rest)))
      (ofWords (.operator operator :: (right.spelling ++ .mark ')' :: rest))) :=
    ReadsCalled.atom_iff.1 ((hl.operand _).lift hdl (by simp))
  have hright : Reads (.atom (some right)) (ofWords (right.spelling ++ .mark ')' :: rest))
      (ofWords (.mark ')' :: rest)) :=
    ReadsCalled.atom_iff.1 ((hr.plain _ fun _ => ⟨by simp, by simp⟩).lift hdr (by simp))
  have hlink : Reads (.links 0 [⟨operator, strength, right⟩])
      (ofWords (.operator operator :: (right.spelling ++ .mark ')' :: rest)))
      (ofWords (.mark ')' :: rest)) := by
    have hend : Reads (.links 0 []) (ofWords (.mark ')' :: rest)) (ofWords (.mark ')' :: rest)) :=
      .noOperator (by simp)
    exact .link (c := ofWords (.operator operator :: (right.spelling ++ .mark ')' :: rest)))
      rfl hop (pos_of_precedence? hop) hright hend
  have hnone : Reads
      (.called (ofChain left [⟨operator, strength, right⟩]) (joined operator left right))
      (ofWords (.mark ')' :: rest)) (ofWords (.mark ')' :: rest)) := by
    rw [ofChain_single]
    exact .uncalled (by simp)
  exact .group (.expression hleft hlink hnone)

/-- The condition and the first branch of a conditional are read one behind the other. -/
theorem branches {condition thenBranch : Expr} (ws : List Word) (hc : ReadBack condition)
    (ht : ReadBack thenBranch) (hdc : condition.callDepth ≤ 2) (hdt : thenBranch.callDepth ≤ 2)
    (hapart : (ofWords (thenBranch.spelling ++ ws)).current.isMark '(' = true →
      condition.callDepth = 2) (hop : (ofWords ws).current.kind ≠ .operator)
    (hm : (ofWords ws).current.isMark '(' = false) :
    Reads (.expression (some condition))
        (ofWords (condition.spelling ++ (thenBranch.spelling ++ ws)))
        (ofWords (thenBranch.spelling ++ ws)) ∧
      Reads (.expression (some thenBranch)) (ofWords (thenBranch.spelling ++ ws)) (ofWords ws) := by
  refine ⟨hc.expression hdc ?_ hapart, ht.expression hdt hop (by simp [hm])⟩
  obtain ⟨w, ws', hw, hb⟩ := thenBranch.exists_spelling_eq
  simpa [hw] using hb.ne_operator

theorem ifThen {condition thenBranch : Expr} (hc : ReadBack condition) (ht : ReadBack thenBranch)
    (hdc : condition.callDepth ≤ 2) (hdt : thenBranch.callDepth ≤ 2)
    (hapart : ∀ ws, (ofWords (thenBranch.spelling ++ ws)).current.isMark '(' = true →
      condition.callDepth = 2) (rest : List Word) :
    Reads (.unit (some (.ifThen condition thenBranch)))
      (ofWords ((Expr.ifThen condition thenBranch).spelling ++ rest)) (ofWords rest) := by
  obtain ⟨hcond, hthen⟩ := branches (.mark ')' :: rest) hc ht hdc hdt (hapart _) (by simp)
    (by simp)
  have hunit : Reads (.unit (some (.ifThen condition thenBranch)))
      (ofWords (.keyword "if" ::
        (condition.spelling ++ (thenBranch.spelling ++ .mark ')' :: rest))))
      (ofWords (.mark ')' :: rest)) :=
    .ifThen (by simp [Word.keyword]) hcond hthen (by simp [Word.mark])
  have hgroup := Reads.group (hunit.expression_of_unit (by simp) (by simp))
  simpa [Expr.spelling] using hgroup

theorem ifThenElse {condition thenBranch elseBranch : Expr} (hc : ReadBack condition)
    (ht : ReadBack thenBranch) (he : ReadBack elseBranch) (hdc : condition.callDepth ≤ 2)
    (hdt : thenBranch.callDepth ≤ 2) (hde : elseBranch.callDepth ≤ 2)
    (hapart : ∀ ws, (ofWords (thenBranch.spelling ++ ws)).current.isMark '(' = true →
      condition.callDepth = 2) (rest : List Word) :
    Reads (.unit (some (.ifThenElse condition thenBranch elseBranch)))
      (ofWords ((Expr.ifThenElse condition thenBranch elseBranch).spelling ++ rest))
      (ofWords rest) := by
  obtain ⟨hcond, hthen⟩ := branches (.keyword "else" :: (elseBranch.spelling ++ .mark ')' :: rest))
    hc ht hdc hdt (hapart _) (by simp) (by simp)
  have helse : Reads (.expression (some elseBranch))
      (ofWords (elseBranch.spelling ++ .mark ')' :: rest)) (ofWords (.mark ')' :: rest)) :=
    he.expression_mark hde (by decide)
  have hunit : Reads (.unit (some (.ifThenElse condition thenBranch elseBranch)))
      (ofWords (.keyword "if" :: (condition.spelling ++ (thenBranch.spelling ++
        .keyword "else" :: (elseBranch.spelling ++ .mark ')' :: rest)))))
      (ofWords (.mark ')' :: rest)) :=
    .ifThenElse (by simp [Word.keyword]) hcond hthen (by simp [Word.keyword]) helse
  have hgroup := Reads.group (hunit.expression_of_unit (by simp) (by simp))
  simpa [Expr.spelling] using hgroup

/-- Statements between braces are read to the closing one. -/
theorem block {es : List Expr} (h : ∀ e ∈ es, ReadBack e ∧ e.callDepth ≤ 2) (rest : List Word) :
    Reads (.block (some (.block es))) (ofWords (blockSpelling (es.map Expr.spelling) ++ rest))
      (ofWords rest) := by
  have hbrace : ∀ ws, (ofWords (.mark '\x7b' :: ws)).current.isMark '\x7b' = true := by simp
  have hclose : ∀ ws, (ofWords (.mark '\x7d' :: ws)).current.isMark '\x7d' = true := by simp
  cases es with
  | nil =>
    have hempty : Reads (.block none)
        (ofWords (.mark '\x7b' :: .mark '\x7d' :: .mark '\x7d' :: rest))
        (ofWords (.mark '\x7d' :: rest)) :=
      .block (hbrace _) (.noElements (closes_mark _ _)) (hclose _)
    have hnone : Reads (.expression none)
        (ofWords (.mark '\x7b' :: .mark '\x7d' :: .mark '\x7d' :: rest))
        (ofWords (.mark '\x7d' :: rest)) :=
      .absent (.absentAtom (.braces hempty) (by simp)) (by simp) (by simp)
    have hitems : Reads (.items '\x7d' ';' []) (ofWords (.mark '\x7d' :: rest))
        (ofWords (.mark '\x7d' :: rest)) := .noItems (closes_mark _ _)
    have hel : Reads (.elements '\x7d' ';' [none])
        (ofWords (.mark '\x7b' :: .mark '\x7d' :: .mark '\x7d' :: rest))
        (ofWords (.mark '\x7d' :: rest)) :=
      .elements (not_closes_mark (by decide) _) hnone hitems
    exact .block (hbrace (.mark '\x7b' :: .mark '\x7d' :: .mark '\x7d' :: rest)) hel (hclose rest)
  | cons e es =>
    have heach : ReadsEach Parser.expression '\x7d' ';' Expr.spelling some (e :: es) :=
      readsEach (by decide) (by decide) (by decide) h
    have hel : Reads (.elements '\x7d' ';' ((e :: es).map some)) _ _ :=
      reads_iff.2 (heach.elements rest)
    have hblock := Reads.block (hbrace _) hel (hclose _)
    simpa [blockOf, blockSpelling] using hblock

theorem call {callee : Expr} {as : List Expr} (hc : ReadBack callee)
    (h : ∀ a ∈ as, ReadBack a ∧ a.callDepth ≤ 2) (rest : List Word) :
    ReadsCalled (callee.callDepth + 1) (.call callee as)
      (ofWords ((Expr.call callee as).spelling ++ rest)) (ofWords rest) := by
  have heach : ReadsEach Parser.expression ')' ',' Expr.spelling some as :=
    readsEach (by decide) (by decide) (by decide) h
  have hel : Reads (.elements ')' ',' (as.map some)) _ _ := reads_iff.2 (heach.elements rest)
  have hopen :
      (ofWords (listSpelling (as.map Expr.spelling) ++ rest)).current.isMark '(' = true := by
    simp [listSpelling]
  have hclose : (ofWords (.mark ')' :: rest)).current.isMark ')' = true := by simp
  refine ⟨callee, ofWords (listSpelling (as.map Expr.spelling) ++ rest), ?_, ?_⟩
  · simpa [Expr.spelling, Expr.spellings_eq_map] using
      hc.operand (listSpelling (as.map Expr.spelling) ++ rest)
  · exact .call hopen (by simpa [listSpelling] using hel) hclose

/-- A definition goes on as far as its body does. -/
theorem function {name : String} {params : List Parameter} {body : Expr} (hb : ReadBack body)
    (hd : body.callDepth ≤ 2) {rest : List Word} (hop : (ofWords rest).current.kind ≠ .operator)
    (hm : (ofWords rest).current.isMark '(' = false) :
    Reads (.unit (some (.function name params body)))
      (ofWords ((Expr.function name params body).spelling ++ rest)) (ofWords rest) := by
  have hbody := hb.expression hd hop (by simp [hm])
  have hparams : ReadsParameters params
      (ofWords (listSpelling (params.map Parameter.spelling) ++ (body.spelling ++ rest)))
      (ofWords (body.spelling ++ rest)) :=
    .given (by simp [listSpelling]) (parameters_ofWords params _)
  have hdef : (ofWords (.keyword "def" :: .name name :: (listSpelling (params.map
      Parameter.spelling) ++ (body.spelling ++ rest)))).current.isWord .keyword "def" = true := by
    simp [Word.keyword]
  have hunit := Reads.function hdef hparams hbody
  simpa [Expr.spelling, Word.name] using hunit

theorem external (name : String) (params : List Parameter) (rest : List Word) :
    Reads (.unit (some (.external name params)))
      (ofWords ((Expr.external name params).spelling ++ rest)) (ofWords rest) := by
  have hext : (ofWords (.keyword "ext" :: .name name :: (listSpelling (params.map
      Parameter.spelling) ++ rest))).current.isWord .keyword "ext" = true := by
    simp [Word.keyword]
  have hunit := Reads.external hext (by simp) (parameters_ofWords params rest)
  simpa [Expr.spelling, Word.name] using hunit

theorem closure (params : List String) {es : List Expr} (h : ReadBack (.block es))
    (rest : List Word) : Reads (.unit (some (.closure params (.block es))))
      (ofWords ((Expr.closure params (.block es)).spelling ++ rest)) (ofWords rest) := by
  have hbody : Reads (.block (some (.block es))) (ofWords ((Expr.block es).spelling ++ rest))
      (ofWords rest) := by
    obtain ⟨ws, hws⟩ := Expr.exists_spelling_block es
    have hunit := h.plain rest nofun
    rw [hws, List.cons_append] at hunit ⊢
    exact .block_of_unit hunit
  have hcls : (ofWords (.keyword "cls" :: (listSpelling (params.map fun p => [.name p]) ++
      ((Expr.block es).spelling ++ rest)))).current.isWord .keyword "cls" = true := by
    simp [Word.keyword]
  have hunit := Reads.closure hcls (names_ofWords params _) hbody
  simpa [Expr.spelling] using hunit

theorem terminal {w : Word} {e : Expr} (hs : e.spelling = [w])
    (h : Rule.terminalValue w.token = .ok e) (rest : List Word) :
    Reads (.unit (some e)) (ofWords (e.spelling ++ rest)) (ofWords rest) := by
  have hunit : Reads (.unit (some e)) (ofWords (w :: rest)) (ofWords rest) := .terminal h
  simpa [hs] using hunit

theorem boolean (value : Bool) (rest : List Word) :
    Reads (.unit (some (.boolean value))) (ofWords ((Expr.boolean value).spelling ++ rest))
      (ofWords rest) := by
  cases value with
  | true =>
    have hk : (ofWords (.keyword "true" :: rest)).current.isWord .keyword "true" = true := by
      simp [Word.keyword]
    exact .boolean (.inl hk)
  | false =>
    have hk : (ofWords (.keyword "false" :: rest)).current.isWord .keyword "false" = true := by
      simp [Word.keyword]
    exact .boolean (.inr hk)

end ReadBack

/-- Legible leaves and shown groups are all that it takes for a spelling to be read back. -/
theorem readBack {e : Expr} (hl : ∀ n ∈ e.nodes, n.Legible) (hp : ∀ n ∈ e.nodes, n.Printable) :
    ReadBack e := by
  induction e using Expr.induction_on_children with
  | h e ih =>
    have hopens : ∀ c ∈ e.children, ∀ ws, (ofWords (c.spelling ++ ws)).current.isMark '(' = true →
        c.Opens := fun c hc ws =>
      (Expr.opens_iff (fun n hn => (Expr.forall_mem_nodes.1 hl).2 c hc n hn) ws).1
    obtain ⟨hle, hl⟩ := Expr.forall_mem_nodes.1 hl
    obtain ⟨hpe, hp⟩ := Expr.forall_mem_nodes.1 hp
    have ih : ∀ c ∈ e.children, ReadBack c ∧ c.callDepth ≤ 2 := fun c hc =>
      ⟨ih c hc (hl c hc) (hp c hc), Expr.callDepth_le_two (Expr.forall_mem_nodes.1 (hp c hc)).1.1⟩
    cases e with
    | number value =>
      have ht : Rule.terminalValue (Word.token (.number, numeral value)) = .ok (.number value) := by
        simp [Rule.terminalValue, numeral?_numeral]
      exact .of_unit rfl rfl (ReadBack.terminal rfl ht)
    | string value => exact .of_unit rfl rfl (ReadBack.terminal rfl rfl)
    | character code =>
      have hcode : code.isValidChar := hle
      have ht : Rule.terminalValue (Word.token (.character, (characterOf code).toString)) =
          .ok (.character code) := by
        simp [Rule.terminalValue, Token.firstChar, characterOf, hcode]
      exact .of_unit rfl rfl (ReadBack.terminal rfl ht)
    | boolean value => exact .of_unit rfl rfl (ReadBack.boolean value)
    | symbol name => exact .of_unit rfl rfl (ReadBack.terminal rfl rfl)
    | assignment operator assignee value =>
      obtain rfl : operator = assignmentOperator := hle
      have hs : precedence? assignmentOperator = some 1 := rfl
      refine .of_unit rfl rfl fun rest => ?_
      have hunit := ReadBack.operation hs (ih assignee (by simp [Expr.children])).1
        (ih value (by simp [Expr.children])).1 hpe.1.1 hpe.1.2 rest
      simpa [Expr.spelling, joined] using hunit
    | binary operator left right =>
      obtain ⟨strength, hs⟩ := Option.isSome_iff_exists.1 hle.1
      refine .of_unit rfl rfl fun rest => ?_
      have hunit := ReadBack.operation hs (ih left (by simp [Expr.children])).1
        (ih right (by simp [Expr.children])).1 hpe.1.1 hpe.1.2 rest
      simpa [Expr.spelling, joined, hle.2] using hunit
    | ifThen condition thenBranch =>
      have hc := ih condition (by simp [Expr.children])
      have ht := ih thenBranch (by simp [Expr.children])
      have hapart := fun ws hm => hpe.2 (hopens thenBranch (by simp [Expr.children]) ws hm)
      exact .of_unit rfl rfl (ReadBack.ifThen hc.1 ht.1 hc.2 ht.2 hapart)
    | ifThenElse condition thenBranch elseBranch =>
      have hc := ih condition (by simp [Expr.children])
      have ht := ih thenBranch (by simp [Expr.children])
      have he := ih elseBranch (by simp [Expr.children])
      have hapart := fun ws hm => hpe.2 (hopens thenBranch (by simp [Expr.children]) ws hm)
      exact .of_unit rfl rfl (ReadBack.ifThenElse hc.1 ht.1 he.1 hc.2 ht.2 he.2 hapart)
    | function name params body =>
      obtain ⟨hb, hd⟩ := ih body (by simp [Expr.children])
      refine ⟨fun rest => ?_, fun rest hrest => hb.function hd (hrest rfl).1 (hrest rfl).2⟩
      have hunit : Reads (.unit (some (.function name params body)))
          (ofWords ((Expr.function name params body).spelling ++ .mark ')' :: rest))
          (ofWords (.mark ')' :: rest)) := hb.function hd (by simp) (by simp)
      have hgroup := Reads.group (hunit.expression_of_unit (by simp) (by simp))
      have hspelling : (Expr.function name params body).operandSpelling
          (Expr.function name params body).spelling ++ rest =
          .mark '(' :: ((Expr.function name params body).spelling ++ .mark ')' :: rest) := by
        simp [Expr.operandSpelling, Expr.isDefinition]
      rw [hspelling]
      exact hgroup
    | external name params => exact .of_unit rfl rfl (ReadBack.external name params)
    | closure params body =>
      obtain ⟨es, rfl⟩ := hle.2
      have hb := (ih (.block es) (by simp [Expr.children])).1
      exact .of_unit rfl rfl (ReadBack.closure params hb)
    | call callee arguments =>
      have hc := (ih callee (by simp [Expr.children])).1
      have ha : ∀ a ∈ arguments, ReadBack a ∧ a.callDepth ≤ 2 := fun a ha =>
        ih a (by simp [Expr.children, ha])
      exact ⟨hc.call ha, fun rest _ => hc.call ha rest⟩
    | block body =>
      refine .of_unit rfl rfl fun rest => .braces ?_
      have hb : ∀ s ∈ body, ReadBack s ∧ s.callDepth ≤ 2 := fun s hs => ih s hs
      simpa [Expr.spelling, Expr.spellings_eq_map] using ReadBack.block hb rest

/-- Statements are read from their spellings with semicolons between them. -/
theorem reads_statements {es : List Expr} (h : ∀ e ∈ es, ReadBack e ∧ e.callDepth ≤ 2) :
    Reads (.statements (es.map some)) (ofWords (separated (.mark ';') (es.map Expr.spelling)))
      (ofWords []) := by
  have hstart : ∀ (e : Expr) (ws : List Word), (ofWords (e.spelling ++ ws)).atEnd = false := by
    intro e ws
    obtain ⟨w, ws', hw, hb⟩ := e.exists_spelling_eq
    simpa [hw] using hb.ne_eof
  cases es with
  | nil => exact .noStatements rfl
  | cons e es =>
    rw [List.map_cons, List.map_cons, separated]
    induction es generalizing e with
    | nil =>
      obtain ⟨hb, hd⟩ := h e (by simp)
      have hread : Reads (.expression (some e)) (ofWords (e.spelling ++ [])) (ofWords []) :=
        hb.expression hd (by simp) (by simp)
      exact .lastStatement (hstart e []) hread rfl
    | cons e' es ih =>
      obtain ⟨⟨hb, hd⟩, htail⟩ := List.forall_mem_cons.1 h
      have hrest := ih e' htail
      generalize hws : e'.spelling ++ (es.map Expr.spelling).flatMap (.mark ';' :: ·) = ws at hrest
      have hread : Reads (.expression (some e)) (ofWords (e.spelling ++ .mark ';' :: ws))
          (ofWords (.mark ';' :: ws)) := hb.expression_mark hd (by decide)
      have hsep : (ofWords (.mark ';' :: ws)).current.isMark ';' = true := by simp
      have hstatements := Reads.statements (hstart e _) hread hsep hrest
      simpa [← hws] using hstatements

/-- The tokens of a program's text spell the program. -/
theorem Program.ofSource_text {p : Program} (hl : ∀ e ∈ p.body, ∀ n ∈ e.nodes, n.Legible)
    (hp : ∀ e ∈ p.body, ∀ n ∈ e.nodes, n.Printable) (file streamFile : String) :
    Program.ofSource p.text file streamFile = .ok p := by
  have hread : ∀ e ∈ p.body, ReadBack e ∧ e.callDepth ≤ 2 := fun e he =>
    ⟨readBack (hl e he) (hp e he),
      Expr.callDepth_le_two (Expr.forall_mem_nodes.1 (hp e he)).1.1⟩
  refine (ofSource_eq_ok_iff (Program.scan_text hl)).2 ⟨_, _, reads_statements hread, ?_⟩
  rw [reduceOption_map_some]

/-- The text of a well-formed program has tokens, and these are read as the program. -/
theorem ofTokens_text_of_wellFormed {p : Program}
    (h : ∀ e ∈ p.body, ∀ n ∈ e.nodes, n.WellFormed) (file streamFile : String) :
    ∃ tokens, tokenize p.text file = .ok tokens ∧ Program.ofTokens tokens streamFile = .ok p := by
  have hread := Program.ofSource_text (fun e he n hn => (h e he n hn).1)
    (fun e he n hn => (h e he n hn).printable) file streamFile
  unfold Program.ofSource at hread
  cases ht : tokenize p.text file with
  | error e => simp [ht, bind, Except.bind] at hread
  | ok tokens => exact ⟨tokens, rfl, by simpa [ht, bind, Except.bind] using hread⟩

/-- Definitions as operand and callee, calls of calls, an empty block and escaped literals. -/
theorem ofTokens_text_of_wellFormed_nested :
    let p : Program := ⟨[
      .assignment "=" (.function "f" [⟨"int", some "a"⟩, ⟨"t", none⟩] (.block []))
        (.binary "/" (.call (.symbol "g") [.number 7, .string "a\"\n\\"]) (.character 39)),
      .ifThenElse (.call (.call (.function "h" [] (.boolean true)) []) [.external "e" []])
        (.closure ["y"] (.block [.symbol "y", .ifThen (.boolean false) (.block [])]))
        (.binary "==" (.number 1) (.number 2))]⟩
    (∀ e ∈ p.body, ∀ n ∈ e.nodes, n.WellFormed) ∧
      ∃ tokens, tokenize p.text "f" = .ok tokens ∧ Program.ofTokens tokens "g" = .ok p := by
  intro p
  have h : ∀ e ∈ p.body, ∀ n ∈ e.nodes, n.WellFormed := by decide +kernel
  exact ⟨h, ofTokens_text_of_wellFormed h "f" "g"⟩

end ExprLang
