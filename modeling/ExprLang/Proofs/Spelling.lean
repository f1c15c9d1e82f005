import ExprLang.Expr.Text
import ExprLang.Proofs.Scanning
import ExprLang.Proofs.Trees

/-!
# Spellings

The spelling of a tree is the words of its text. A text is cut into just these words
where the leaves of the tree are legible: nothing in it fuses with what stands next to it.
-/
namespace ExprLang

/-- Words with a separator between them. -/
def separated (separator : Word) : List (List Word) → List Word
  | [] => []
  | ws :: wss => ws ++ wss.flatMap (separator :: ·)

/-- The words of a list in parentheses. -/
def listSpelling (items : List (List Word)) : List Word :=
  .mark '(' :: (separated (.mark ',') items ++ [.mark ')'])

/-- The words of statements between braces. -/
def blockSpelling (statements : List (List Word)) : List Word :=
  if statements.isEmpty then [.mark '\x7b', .mark '\x7b', .mark '\x7d', .mark '\x7d']
  else .mark '\x7b' :: (separated (.mark ';') statements ++ [.mark '\x7d'])

def Parameter.spelling (p : Parameter) : List Word :=
  .name p.type :: (p.name.map .name).toList

namespace Expr

/-- The words of an operand that something follows, given the expression's own words. -/
def operandSpelling (e : Expr) (ws : List Word) : List Word :=
  if e.isDefinition then .mark '(' :: (ws ++ [.mark ')']) else ws

mutual

def spelling : Expr → List Word
  | number value => [(.number, numeral value)]
  | string value => [(.string, value)]
  | character code => [(.character, (characterOf code).toString)]
  | boolean value => [.keyword (booleanText value)]
  | symbol name => [.name name]
  | assignment operator assignee value =>
    .mark '(' :: (operandSpelling assignee (spelling assignee) ++
      .operator operator :: (spelling value ++ [.mark ')']))
  | binary operator left right =>
    .mark '(' :: (operandSpelling left (spelling left) ++
      .operator operator :: (spelling right ++ [.mark ')']))
  | ifThen condition thenBranch =>
    .mark '(' :: .keyword "if" :: (spelling condition ++ (spelling thenBranch ++ [.mark ')']))
  | ifThenElse condition thenBranch elseBranch =>
    .mark '(' :: .keyword "if" :: (spelling condition ++ (spelling thenBranch ++
      .keyword "else" :: (spelling elseBranch ++ [.mark ')'])))
  | function name params body =>
    .keyword "def" :: .name name ::
      (listSpelling (params.map Parameter.spelling) ++ spelling body)
  | external name params =>
    .keyword "ext" :: .name name :: listSpelling (params.map Parameter.spelling)
  | closure params body =>
    .keyword "cls" :: (listSpelling (params.map fun p => [.name p]) ++ spelling body)
  | call callee arguments =>
    operandSpelling callee (spelling callee) ++ listSpelling (spellings arguments)
  | block body => blockSpelling (spellings body)

/-- The spellings of expressions, one for each. -/
def spellings : List Expr → List (List Word)
  | [] => []
  | e :: es => spelling e :: spellings es

end

theorem spellings_eq_map (es : List Expr) : spellings es = es.map spelling := by
  induction es with
  | nil => rfl
  | cons e es ih => simp [spellings, ih]

end Expr

/-- The words of a program's text. -/
def Program.spelling (p : Program) : List Word :=
  separated (.mark ';') (p.body.map Expr.spelling)

namespace Writes

variable {text text' : List Char} {ws ws' : List Word}

theorem append_space (h : Writes text ws) (h' : Writes text' ws') :
    Writes (text ++ ' ' :: text') (ws ++ ws') :=
  h.append (h'.blank (by decide)) fun _ => .cons rfl

theorem append_mark {m : Char} (hm : isMarkChar m = true) (h : Writes text ws)
    (h' : Writes text' ws') : Writes (text ++ m :: text') (ws ++ .mark m :: ws') :=
  h.append (h'.mark hm) fun _ => .cons (by simp [isBreak, hm])

theorem append_keyword {w : String} (hw : w ∈ keywords) (h : Writes text ws) :
    Writes (w.toList ++ ' ' :: text) (.keyword w :: ws) := (writes_keyword hw).append_space h

theorem blanks {blanks : List Char} (hblanks : ∀ c ∈ blanks, isBlank c = true)
    (h : Writes text ws) : Writes (blanks ++ text) ws := by
  induction blanks with
  | nil => exact h
  | cons b bs ih =>
    rw [List.forall_mem_cons] at hblanks
    exact (ih hblanks.2).blank hblanks.1

variable {α : Type} {f : α → String} {g : α → List Word} {m : Char} {separator : String}
  {space : List Char}

/-- Texts with a separator between them stand for words with its mark between them. -/
theorem intercalate (hm : isMarkChar m = true) (hsep : separator.toList = m :: space)
    (hspace : ∀ c ∈ space, isBlank c = true) {as : List α}
    (h : ∀ a ∈ as, Writes (f a).toList (g a)) :
    Writes (separator.intercalate (as.map f)).toList (separated (.mark m) (as.map g)) := by
  cases as with
  | nil => simpa [separated] using nil
  | cons a as =>
    obtain ⟨ha, has⟩ := List.forall_mem_cons.1 h
    clear h
    have htail : ∀ (s : String) (as : List α),
        (separator.intercalate (s :: as.map f)).toList =
          s.toList ++ as.flatMap fun a => m :: (space ++ (f a).toList) := by
      intro s as
      induction as generalizing s with
      | nil => simp
      | cons a as ih => simp [String.intercalate_cons_cons, ih, hsep]
    have hrest : Writes (as.flatMap fun a => m :: (space ++ (f a).toList))
        ((as.map g).flatMap (.mark m :: ·)) := by
      clear htail
      induction as with
      | nil => exact nil
      | cons b as ih =>
        rw [List.forall_mem_cons] at has
        have hb : Writes (m :: (space ++ (f b).toList)) (.mark m :: g b) :=
          (has.1.blanks hspace).mark hm
        refine hb.append (ih has.2) fun hne => ?_
        cases as with
        | nil => exact absurd rfl hne
        | cons => exact .cons (by simp [isBreak, hm])
    rw [List.map_cons, htail, List.map_cons]
    refine ha.append hrest fun hne => ?_
    cases as with
    | nil => exact absurd rfl hne
    | cons => exact .cons (by simp [isBreak, hm])

theorem isBlank_of_mem_space {c : Char} (h : c ∈ [' ']) : isBlank c = true := by
  obtain rfl := List.mem_singleton.1 h
  decide

theorem list {as : List α} (h : ∀ a ∈ as, Writes (f a).toList (g a)) :
    Writes (listText (as.map f)).toList (listSpelling (as.map g)) := by
  have hsep : ", ".toList = ',' :: [' '] := rfl
  have hitems := intercalate (by decide) hsep (fun _ => isBlank_of_mem_space) h
  have hclose : isMarkChar ')' = true := by decide
  have hopen : isMarkChar '(' = true := by decide
  simpa [listText, listSpelling] using (hitems.append_mark hclose nil).mark hopen

/-- A list in parentheses may follow anything. -/
theorem append_list {as : List α} (hw : Writes text ws)
    (h : ∀ a ∈ as, Writes (f a).toList (g a)) :
    Writes (text ++ (listText (as.map f)).toList) (ws ++ listSpelling (as.map g)) := by
  refine hw.append (list h) fun _ => ?_
  have hbreak : isBreak '(' = true := by decide
  simpa [listText] using Breaks.cons hbreak

theorem block {as : List α} (h : ∀ a ∈ as, Writes (f a).toList (g a)) :
    Writes (Expr.blockText (as.map f)).toList (blockSpelling (as.map g)) := by
  have hopen : isMarkChar '\x7b' = true := by decide
  have hclose : isMarkChar '\x7d' = true := by decide
  have hspace : isBlank ' ' = true := by decide
  by_cases has : as = []
  · subst has
    have hinner := ((nil.mark hclose).blank hspace).mark hclose
    simpa [Expr.blockText, blockSpelling] using ((hinner.mark hopen).blank hspace).mark hopen
  · have hsep : "; ".toList = ';' :: [' '] := rfl
    have hitems := intercalate (by decide) hsep (fun _ => isBlank_of_mem_space) h
    have hend := hitems.append_space (nil.mark hclose)
    simpa [Expr.blockText, blockSpelling, has] using (hend.blank hspace).mark hopen

end Writes

/-- The parts of a node that are written as they are can be read again. -/
def Parameter.Legible (p : Parameter) : Prop :=
  isName p.type = true ∧ ∀ name ∈ p.name, isName name = true

theorem Parameter.writes {p : Parameter} (h : p.Legible) : Writes p.text.toList p.spelling := by
  obtain ⟨type, _ | name⟩ := p
  · exact writes_name h.1
  · have hname := writes_name (h.2 name rfl)
    simpa [Parameter.text, Parameter.spelling] using (writes_name h.1).append_space hname

namespace Expr

/-- What a node says itself, apart from its children, is legible in its text: names are
words and no keywords, operators are those of the language, numbers need no sign, and
codes are those of characters. The body of a closure is a block. -/
def Legible : Expr → Prop
  | number value => 0 ≤ value.toInt
  | character code => code.isValidChar
  | symbol name => isName name = true
  | assignment operator _ _ => operator = assignmentOperator
  | binary operator _ _ => (precedence? operator).isSome = true ∧ operator ≠ assignmentOperator
  | function name params _ | external name params =>
    isName name = true ∧ ∀ p ∈ params, p.Legible
  | closure params body => (∀ p ∈ params, isName p = true) ∧ ∃ es, body = block es
  | _ => True

theorem writes_operandText {e : Expr} (h : Writes e.text.toList e.spelling) :
    Writes (e.operandText e.text).toList (e.operandSpelling e.spelling) := by
  unfold operandText operandSpelling
  split_ifs
  · have hclose : isMarkChar ')' = true := by decide
    have hopen : isMarkChar '(' = true := by decide
    simpa using (h.append_mark hclose .nil).mark hopen
  · exact h

theorem writes_operation {e v : Expr} {operator : String} {strength : ℕ}
    (hop : precedence? operator = some strength) (he : Writes e.text.toList e.spelling)
    (hv : Writes v.text.toList v.spelling) :
    Writes ("(" ++ e.operandText e.text ++ " " ++ operator ++ " " ++ v.text ++ ")").toList
      (.mark '(' :: (e.operandSpelling e.spelling ++
        .operator operator :: (v.spelling ++ [.mark ')']))) := by
  have hclose : isMarkChar ')' = true := by decide
  have hopen : isMarkChar '(' = true := by decide
  have hoperand := (writes_operator hop).append_space (hv.append_mark hclose .nil)
  simpa using ((writes_operandText he).append_space hoperand).mark hopen

/-- The text of a tree with legible leaves stands for its spelling. -/
theorem writes_text {e : Expr} (h : ∀ n ∈ e.nodes, n.Legible) :
    Writes e.text.toList e.spelling := by
  induction e using induction_on_children with
  | h e ih =>
    rw [forall_mem_nodes] at h
    obtain ⟨he, hc⟩ := h
    have ih : ∀ c ∈ e.children, Writes c.text.toList c.spelling := fun c hm => ih c hm (hc c hm)
    have hclose : isMarkChar ')' = true := by decide
    have hopen : isMarkChar '(' = true := by decide
    cases e with
    | number value => exact writes_numeral he
    | string value => exact writes_string value
    | character code => exact writes_character _
    | boolean value => cases value <;> exact writes_keyword (by decide)
    | symbol name => exact writes_name he
    | assignment operator assignee value =>
      obtain rfl : operator = assignmentOperator := he
      exact writes_operation rfl (ih assignee (by simp [children])) (ih value (by simp [children]))
    | binary operator left right =>
      obtain ⟨strength, hs⟩ := Option.isSome_iff_exists.1 he.1
      exact writes_operation hs (ih left (by simp [children])) (ih right (by simp [children]))
    | ifThen condition thenBranch =>
      have hcond := ih condition (by simp [children])
      have hthen := (ih thenBranch (by simp [children])).append_mark hclose .nil
      have hif := Writes.append_keyword (w := "if") (by decide) (hcond.append_space hthen)
      simpa [text, spelling] using hif.mark hopen
    | ifThenElse condition thenBranch elseBranch =>
      have hcond := ih condition (by simp [children])
      have helse := (ih elseBranch (by simp [children])).append_mark hclose .nil
      have helse := Writes.append_keyword (w := "else") (by decide) helse
      have hthen := (ih thenBranch (by simp [children])).append_space helse
      have hif := Writes.append_keyword (w := "if") (by decide) (hcond.append_space hthen)
      simpa [text, spelling] using hif.mark hopen
    | function name params body =>
      have hparams := fun p hp => Parameter.writes (he.2 p hp)
      have hhead := (writes_name he.1).append_list hparams
      have hbody := hhead.append_space (ih body (by simp [children]))
      have hdef := Writes.append_keyword (w := "def") (by decide) hbody
      simpa [text, spelling] using hdef
    | external name params =>
      have hparams := fun p hp => Parameter.writes (he.2 p hp)
      have hhead := (writes_name he.1).append_list hparams
      have hext := Writes.append_keyword (w := "ext") (by decide) hhead
      simpa [text, spelling] using hext
    | closure params body =>
      have hparams := fun p hp => writes_name (he.1 p hp)
      have hhead := (writes_keyword (w := "cls") (by decide)).append_list hparams
      simpa [text, spelling] using hhead.append_space (ih body (by simp [children]))
    | call callee arguments =>
      have harguments : ∀ a ∈ arguments, Writes a.text.toList a.spelling :=
        fun a ha => ih a (by simp [children, ha])
      have hcallee := writes_operandText (ih callee (by simp [children]))
      simpa [text, spelling, texts_eq_map, spellings_eq_map] using
        hcallee.append_list harguments
    | block body =>
      have hbody : ∀ s ∈ body, Writes s.text.toList s.spelling := fun s hs => ih s hs
      simpa [text, spelling, texts_eq_map, spellings_eq_map] using Writes.block hbody

end Expr

/-- The text of a program is cut into the words of its spelling and nothing else. -/
theorem Program.scan_text {p : Program} (h : ∀ e ∈ p.body, ∀ n ∈ e.nodes, n.Legible) :
    scan p.text.toList = (p.spelling, []) := by
  have hsep : ";\n".toList = ';' :: ['\n'] := rfl
  have hbody : ∀ e ∈ p.body, Writes e.text.toList e.spelling := fun e he =>
    Expr.writes_text (h e he)
  have hnewline : ∀ c ∈ ['\n'], isBlank c = true := by
    intro c hc
    obtain rfl := List.mem_singleton.1 hc
    decide
  have hw := Writes.intercalate (by decide) hsep hnewline hbody
  simpa [Program.text, Program.spelling] using hw [] .nil

end ExprLang
