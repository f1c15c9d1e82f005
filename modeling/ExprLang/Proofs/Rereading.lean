import ExprLang.Proofs.Legibility
import ExprLang.Proofs.Retracing

/-!
# Reading a text again

Where a tree is read from the tokens of its own text, each of its nodes is read from the
words that were written for it, so that these show how the node is grouped. Nodes are
retraced one by one, a node from its children.
-/
namespace ExprLang

open ExprLang.Parser Cursor

section Bare

variable {e : Expr} {a b : ℕ} {c c' c₀ : Cursor} {rest : List Word}

/-- A text is read without parentheses from behind those that it begins with. -/
theorem Retraced.of_bare (hopen : a + e.groups = b)
    (hclose : Marks ')' e.groups c' (ofWords rest)) (hd : e.callDepth = 0)
    (hp : e.Printable) (hall : ∀ x ∈ e.children, ∀ n ∈ x.nodes, n.Printable) :
    Retraced e a b 0 0 rest c' where
  opened := hopen
  closed := ⟨c', hclose, .none _⟩
  printable := Expr.forall_mem_nodes.2 ⟨hp, hall⟩
  depth_le _ := hd.le
  depth_eq _ := .inl ⟨rfl, .inl hd⟩

/-- A node without children is read back wherever it is read. -/
theorem Retraced.of_leaf (hl : e.Legible) (hnil : e.children = [])
    (hstart : (ofWords (e.spelling ++ rest)).current.isMark '(' = false)
    (h : Reads (.unit (some e)) c c') (hm : c.current.isMark '(' = false)
    (ha : Marks '(' a c₀ (ofWords (e.spelling ++ rest))) (hb : Marks '(' b c₀ c) :
    Retraced e a b 0 0 rest c' := by
  have hleaf : e.groups = 0 ∧ e.callDepth = 0 ∧ e.isDefinition = false ∧ e.Printable := by
    cases e <;> simp_all [Expr.children, Expr.groups, Expr.callDepth, Expr.isDefinition,
      Expr.Printable, Expr.Shallow, Expr.Apart]
  obtain ⟨hg, hd, hdef, hp⟩ := hleaf
  have hback : ReadBack e := readBack (Expr.forall_mem_nodes.2 ⟨hl, by simp [hnil]⟩)
    (Expr.forall_mem_nodes.2 ⟨hp, by simp [hnil]⟩)
  have hunit : Reads (.unit (some e)) (ofWords (e.spelling ++ rest)) (ofWords rest) := by
    have := hback.plain rest (by simp [hdef])
    rwa [hd] at this
  obtain ⟨rfl, rfl⟩ := ha.unique hb hstart hm
  obtain rfl := h.eq_of_same hunit
  refine .of_bare (by rw [hg, Nat.add_zero]) ?_ hd hp (by simp [hnil])
  rw [hg]
  exact .none _

/-- A condition is read to where the branch behind it begins, and takes no parenthesis of
the branch for its arguments. -/
theorem ended_branches {condition thenBranch : Expr} {ws : List Word} {c₁ c₂ : Cursor}
    (hrc : Retraces condition) (hrt : Retraces thenBranch)
    (hl : ∀ n ∈ thenBranch.nodes, n.Legible)
    (hc : Reads (.expression (some condition))
      (ofWords (condition.spelling ++ (thenBranch.spelling ++ ws))) c₁)
    (ht : Reads (.expression (some thenBranch)) c₁ c₂) :
    c₂ = ofWords ws ∧ (∀ n ∈ condition.nodes, n.Printable) ∧
      (∀ n ∈ thenBranch.nodes, n.Printable) ∧
      (thenBranch.Opens → condition.callDepth = 2) := by
  obtain ⟨rfl, hpc, -, hcall⟩ := hrc.expression hc
  obtain ⟨rfl, hpt, -, -⟩ := hrt.expression ht
  exact ⟨rfl, hpc, hpt, fun ho => hcall ((Expr.opens_iff hl ws).2 ho)⟩

namespace Retraced

/-- The parenthesis behind a conditional closes the one before it. -/
theorem marks_close (ws : List Word) : Marks ')' 1 (ofWords (.mark ')' :: ws)) (ofWords ws) :=
  .mark (by simp) (.none _)

theorem ifThen {condition thenBranch : Expr} (hrc : Retraces condition)
    (hrt : Retraces thenBranch) (hl : ∀ n ∈ thenBranch.nodes, n.Legible)
    (h : Reads (.unit (some (.ifThen condition thenBranch))) c c')
    (hm : c.current.isMark '(' = false)
    (ha : Marks '(' a c₀ (ofWords ((Expr.ifThen condition thenBranch).spelling ++ rest)))
    (hb : Marks '(' b c₀ c) : Retraced (.ifThen condition thenBranch) a b 0 0 rest c' := by
  have hstart : (Expr.ifThen condition thenBranch).spelling ++ rest = .mark '(' :: .keyword "if" ::
      (condition.spelling ++ (thenBranch.spelling ++ .mark ')' :: rest)) := by
    simp [Expr.spelling]
  rw [hstart] at ha
  obtain ⟨hopen, rfl⟩ := ha.word.unique hb (by simp) hm
  obtain ⟨c₁, c₂, hc, ht, helse⟩ := h.parts hm _ rfl
  obtain ⟨rfl, hpc, hpt, hapart⟩ := ended_branches hrc hrt hl hc ht
  obtain rfl := helse (by simp [Word.mark])
  refine of_bare hopen (marks_close rest) rfl ⟨trivial, hapart⟩ ?_
  simpa [Expr.children] using ⟨hpc, hpt⟩

theorem ifThenElse {condition thenBranch elseBranch : Expr} (hrc : Retraces condition)
    (hrt : Retraces thenBranch) (hre : Retraces elseBranch)
    (hl : ∀ n ∈ thenBranch.nodes, n.Legible)
    (h : Reads (.unit (some (.ifThenElse condition thenBranch elseBranch))) c c')
    (hm : c.current.isMark '(' = false)
    (ha : Marks '(' a c₀
      (ofWords ((Expr.ifThenElse condition thenBranch elseBranch).spelling ++ rest)))
    (hb : Marks '(' b c₀ c) :
    Retraced (.ifThenElse condition thenBranch elseBranch) a b 0 0 rest c' := by
  have hstart : (Expr.ifThenElse condition thenBranch elseBranch).spelling ++ rest =
      .mark '(' :: .keyword "if" :: (condition.spelling ++ (thenBranch.spelling ++
        .keyword "else" :: (elseBranch.spelling ++ .mark ')' :: rest))) := by
    simp [Expr.spelling]
  rw [hstart] at ha
  obtain ⟨hopen, rfl⟩ := ha.word.unique hb (by simp) hm
  obtain ⟨c₁, c₂, hc, ht, he⟩ := h.parts hm _ rfl
  obtain ⟨rfl, hpc, hpt, hapart⟩ := ended_branches hrc hrt hl hc ht
  obtain ⟨rfl, hpe, -, -⟩ := hre.expression he
  refine of_bare hopen (marks_close rest) rfl ⟨trivial, hapart⟩ ?_
  simpa [Expr.children] using ⟨hpc, hpt, hpe⟩

theorem function {name : String} {params : List Parameter} {body : Expr} (hr : Retraces body)
    (h : Reads (.unit (some (.function name params body))) c c')
    (hm : c.current.isMark '(' = false)
    (ha : Marks '(' a c₀ (ofWords ((Expr.function name params body).spelling ++ rest)))
    (hb : Marks '(' b c₀ c) : Retraced (.function name params body) a b 0 0 rest c' := by
  have hstart : (Expr.function name params body).spelling ++ rest = .keyword "def" ::
      .name name :: (listSpelling (params.map Parameter.spelling) ++ (body.spelling ++ rest)) := by
    simp [Expr.spelling]
  rw [hstart] at ha
  obtain ⟨hopen, rfl⟩ := ha.unique hb (by simp) hm
  obtain ⟨c₁, hps, hbody⟩ := h.parts hm _ rfl
  obtain rfl : ofWords (body.spelling ++ rest) = c₁ := by
    cases hps with
    | omitted hnone => simp [listSpelling] at hnone
    | given _ h =>
      have hparams := (parameters_ofWords params (body.spelling ++ rest)).symm.trans h
      simpa using hparams
  obtain ⟨rfl, hp, -, -⟩ := hr.expression hbody
  refine of_bare hopen (.none _) rfl ⟨trivial, trivial⟩ ?_
  simpa [Expr.children] using hp

theorem closure {params : List String} {es : List Expr} (hr : Retraces (.block es))
    (h : Reads (.unit (some (.closure params (.block es)))) c c')
    (hm : c.current.isMark '(' = false)
    (ha : Marks '(' a c₀ (ofWords ((Expr.closure params (.block es)).spelling ++ rest)))
    (hb : Marks '(' b c₀ c) : Retraced (.closure params (.block es)) a b 0 0 rest c' := by
  have hstart : (Expr.closure params (.block es)).spelling ++ rest = .keyword "cls" ::
      (listSpelling (params.map fun p => [.name p]) ++ ((Expr.block es).spelling ++ rest)) := by
    simp [Expr.spelling]
  rw [hstart] at ha
  obtain ⟨hopen, rfl⟩ := ha.unique hb (by simp) hm
  obtain ⟨c₁, hps, hbody⟩ := h.parts hm _ rfl
  obtain rfl : ofWords ((Expr.block es).spelling ++ rest) = c₁ := by
    have hnames := (names_ofWords params ((Expr.block es).spelling ++ rest)).symm.trans hps
    simpa using hnames
  have hbrace : (ofWords ((Expr.block es).spelling ++ rest)).current.isMark '(' = false := by
    obtain ⟨ws, hws⟩ := Expr.exists_spelling_block es
    simp [hws]
  have hstands : Stands 0 0 (.block es) (ofWords ((Expr.block es).spelling ++ rest)) c' :=
    .bare hbrace (.braces hbody)
  obtain ⟨rfl, hp, -, -⟩ := hr.same hstands (Nat.zero_le 2)
  refine of_bare hopen (.none _) rfl ⟨trivial, trivial⟩ ?_
  simpa [Expr.children] using hp

theorem block {es : List Expr} (hr : ∀ e ∈ es, Retraces e ∧ ∀ n ∈ e.nodes, n.Legible)
    (h : Reads (.unit (some (.block es))) c c') (hm : c.current.isMark '(' = false)
    (ha : Marks '(' a c₀ (ofWords ((Expr.block es).spelling ++ rest))) (hb : Marks '(' b c₀ c) :
    Retraced (.block es) a b 0 0 rest c' := by
  have hbrace : (ofWords ((Expr.block es).spelling ++ rest)).current.isMark '(' = false := by
    obtain ⟨ws, hws⟩ := Expr.exists_spelling_block es
    simp [hws]
  obtain ⟨hopen, rfl⟩ := ha.unique hb hbrace hm
  obtain ⟨rfl, hp⟩ := ended_of_block hr (h.parts hm _ rfl)
  exact of_bare hopen (.none _) rfl ⟨trivial, trivial⟩ hp

/-- Whatever is read without parentheses is retraced if its children are. -/
theorem bare (hle : e.Legible) (ih : ∀ x ∈ e.children, Retraces x ∧ ∀ n ∈ x.nodes, n.Legible)
    (h : Reads (.unit (some e)) c c') (hm : c.current.isMark '(' = false)
    (ha : Marks '(' a c₀ (ofWords (e.spelling ++ rest))) (hb : Marks '(' b c₀ c) :
    Retraced e a b 0 0 rest c' := by
  have hparts := h.parts hm e rfl
  cases e with
  | assignment | binary | call => exact hparts.elim
  | ifThen condition thenBranch =>
    have hrc := ih condition (by simp [Expr.children])
    have hrt := ih thenBranch (by simp [Expr.children])
    exact ifThen hrc.1 hrt.1 hrt.2 h hm ha hb
  | ifThenElse condition thenBranch elseBranch =>
    have hrc := ih condition (by simp [Expr.children])
    have hrt := ih thenBranch (by simp [Expr.children])
    have hre := ih elseBranch (by simp [Expr.children])
    exact ifThenElse hrc.1 hrt.1 hre.1 hrt.2 h hm ha hb
  | function name params body =>
    have hr := ih body (by simp [Expr.children])
    exact function hr.1 h hm ha hb
  | closure params body =>
    obtain ⟨es, rfl⟩ := hle.2
    have hr := ih (.block es) (by simp [Expr.children])
    exact closure hr.1 h hm ha hb
  | block es => exact block ih h hm ha hb
  | _ => exact of_leaf hle rfl (by simp [Expr.spelling, Word.isMark_of_ne]) h hm ha hb

end Retraced

end Bare

section Joined

variable {operator : String} {left right : Expr}

theorem spelling_joined : (joined operator left right).spelling =
    .mark '(' :: (left.operandSpelling left.spelling ++
      .operator operator :: (right.spelling ++ [.mark ')'])) := by
  unfold joined
  split_ifs <;> rfl

theorem children_joined : (joined operator left right).children = [left, right] := by
  unfold joined
  split_ifs <;> rfl

theorem groups_joined : (joined operator left right).groups = 1 := by
  unfold joined
  split_ifs <;> rfl

theorem printable_joined (hl : left.callDepth ≤ 1) (hr : right.callDepth ≤ 1) :
    (joined operator left right).Printable := by
  unfold joined
  split_ifs <;> exact ⟨⟨hl, hr⟩, trivial⟩

end Joined

namespace Retraced

variable {k n a b : ℕ} {c c₁ c' c₀ : Cursor} {rest : List Word}

/-- Operands are read from behind the parenthesis of their operation. -/
theorem joined {i j : ℕ} {operator : String} {left right : Expr} (hrl : Retraces left)
    (hrr : Retraces right) (hl : Stands i 1 left c c₁) (hop : c₁.current.kind = .operator)
    (hr : Stands j 1 right c₁.next c')
    (ha : Marks '(' a c₀ (ofWords ((joined operator left right).spelling ++ rest)))
    (hb : Marks '(' b c₀ c) : Retraced (ExprLang.joined operator left right) a b 0 k rest c' := by
  have hstart : (ExprLang.joined operator left right).spelling ++ rest =
      .mark '(' :: (left.operandSpelling left.spelling ++
        .operator operator :: (right.spelling ++ .mark ')' :: rest)) := by
    simp [spelling_joined]
  rw [hstart] at ha
  have hop' : c₁.current.isMark ')' = false := by simp [Token.isMark, hop]
  obtain ⟨rfl, rfl, hpl, hdl, -⟩ := hrl.operand hl (by omega) ha.word hb (by simp) hop'
  obtain ⟨rfl, hpr, hdr, -⟩ := hrr.same hr (by omega)
  have hall : ∀ x ∈ (ExprLang.joined operator left right).children, ∀ n ∈ x.nodes, n.Printable := by
    simpa [children_joined] using ⟨hpl, hpr⟩
  have hdepth : (ExprLang.joined operator left right).callDepth = 0 :=
    Expr.callDepth_of_groups (by simp [groups_joined])
  refine ⟨by simp [groups_joined], ⟨ofWords (.mark ')' :: rest), ?_, .none _⟩,
    Expr.forall_mem_nodes.2 ⟨printable_joined hdl hdr, hall⟩, by simp [hdepth],
    fun _ => .inl ⟨rfl, .inr groups_joined⟩⟩
  rw [groups_joined]
  exact marks_close rest

/-- The arguments behind a callee are its own, and leave room for more of them. -/
theorem call {callee : Expr} {as : List Expr} (hrc : Retraces callee)
    (hra : ∀ x ∈ as, Retraces x ∧ ∀ n ∈ x.nodes, n.Legible) (hs : Stands n k callee c c₁)
    (hopen : c₁.current.isMark '(' = true)
    (has : Reads (.elements ')' ',' (as.map some)) c₁.next c') (hk : k + 1 ≤ 2)
    (ha : Marks '(' a c₀ (ofWords ((Expr.call callee as).spelling ++ rest)))
    (hb : Marks '(' b c₀ c) : Retraced (.call callee as) a b 0 (k + 1) rest c'.next := by
  have hstart : (Expr.call callee as).spelling ++ rest =
      callee.operandSpelling callee.spelling ++ .mark '(' ::
        (separated (.mark ',') (as.map Expr.spelling) ++ .mark ')' :: rest) := by
    simp [Expr.spelling, Expr.spellings_eq_map, listSpelling]
  rw [hstart] at ha
  have hopen' : c₁.current.isMark ')' = false := by
    simp [Token.isMark, (Token.isMark_iff.1 hopen).2]
  obtain ⟨rfl, rfl, hpc, hdc, hcall⟩ := hrc.operand hs (by omega) ha hb (by simp) hopen'
  obtain ⟨rfl, hpa⟩ := ended_of_elements hra (by decide) (by decide)
    (reduceOption_map_some as) (by simp_all) has
  have hshallow : callee.callDepth ≤ 1 := hdc.trans (by omega)
  have hdepth : (Expr.call callee as).callDepth = k + 1 := congrArg (· + 1) (hcall hopen)
  exact ⟨rfl, ⟨ofWords rest, .none _, .none _⟩,
    Expr.forall_mem_nodes.2 ⟨⟨hshallow, trivial⟩, List.forall_mem_cons.2 ⟨hpc, hpa⟩⟩,
    fun _ => hdepth.le, fun _ => .inl ⟨rfl, .inl hdepth⟩⟩

end Retraced

/-- A tree is retraced wherever it is read from its own text. -/
theorem retraces {e : Expr} (hl : ∀ n ∈ e.nodes, n.Legible) : Retraces e := by
  induction e using Expr.induction_on_children with
  | h e ih =>
    obtain ⟨hle, hlc⟩ := Expr.forall_mem_nodes.1 hl
    replace ih : ∀ x ∈ e.children, Retraces x ∧ ∀ n ∈ x.nodes, n.Legible := fun x hx =>
      ⟨ih x hx (hlc x hx), hlc x hx⟩
    clear hl hlc
    intro n k a b c c' c₀ rest hs hk ha hb
    -- Groups and empty places for arguments are around one tree, so that what is known of its
    -- children is kept. The readings of the children themselves may begin elsewhere.
    induction hs generalizing a b c₀ rest with
    | bare hm h => exact .bare hle ih h hm ha hb
    | grouped hopen _ hclose ihs =>
      have hr := ihs hle ih le_rfl ha (hb.snoc hopen)
      obtain ⟨d, hd, hd'⟩ := hr.closed
      have hopened := hr.opened
      exact ⟨by omega, ⟨d, hd, hd'.snoc hclose⟩, hr.printable, by omega, fun _ => .inr (by omega)⟩
    | uncalled _ hm ihs =>
      have hr := ihs hle ih (by omega) ha hb
      exact ⟨hr.opened, hr.closed, hr.printable, fun hn => (hr.depth_le hn).trans (by omega),
        by simp [hm]⟩
    | @joined _ _ _ _ left right _ _ _ hl hop _ hr =>
      have hrl := (ih left (by simp [children_joined])).1
      have hrr := (ih right (by simp [children_joined])).1
      exact .joined hrl hrr hl hop hr ha hb
    | @call _ _ callee as _ _ _ hs hopen has _ =>
      have hrc := (ih callee (by simp [Expr.children])).1
      exact .call hrc (fun x hx => ih x (by simp [Expr.children, hx])) hs hopen has hk ha hb

/-- The statements of a program are read each from its own text. -/
theorem printable_of_statements {es : List Expr} {os : List (Option Expr)} {c' : Cursor}
    (hl : ∀ e ∈ es, ∀ n ∈ e.nodes, n.Legible) (hos : os.reduceOption = es)
    (hr : Reads (.statements os)
      (ofWords (separated (.mark ';') (es.map Expr.spelling))) c') :
    ∀ e ∈ es, ∀ n ∈ e.nodes, n.Printable := by
  cases es with
  | nil => exact nofun
  | cons e es =>
    rw [List.map_cons, separated] at hr
    induction es generalizing e os with
    | nil =>
      obtain ⟨he, -⟩ := List.forall_mem_cons.1 hl
      cases hr with
      | noStatements => simp at hos
      | lastStatement _ ho =>
        obtain ⟨⟨-, hp, -, -⟩, -⟩ := (retraces he).head he ho hos
        exact List.forall_mem_cons.2 ⟨hp, nofun⟩
      | statements _ ho hsep =>
        obtain ⟨⟨rfl, -, -, -⟩, -⟩ := (retraces he).head he ho hos
        simp at hsep
    | cons e' es ih =>
      obtain ⟨he, hes⟩ := List.forall_mem_cons.1 hl
      have hstart : e.spelling ++ ((e' :: es).map Expr.spelling).flatMap (.mark ';' :: ·) =
          e.spelling ++ .mark ';' :: (e'.spelling ++
            (es.map Expr.spelling).flatMap (.mark ';' :: ·)) := by simp
      rw [hstart] at hr
      cases hr with
      | noStatements => simp at hos
      | lastStatement _ ho hend =>
        obtain ⟨⟨rfl, -, -, -⟩, -⟩ := (retraces he).head he ho hos
        simp at hend
      | statements _ ho _ hrest =>
        obtain ⟨⟨rfl, hp, -, -⟩, hos⟩ := (retraces he).head he ho hos
        exact List.forall_mem_cons.2 ⟨hp, ih e' hes hos hrest⟩

/-- A program that is read from a source is read again from its text just where each of
its nodes shows its grouping. -/
theorem reread_eq_ok_iff {source file streamFile : String} {tokens : List Token} {p : Program}
    (ht : tokenize source file = .ok tokens)
    (hdef : tokens.IsChain fun t u => t.isWord .keyword "def" = true → u.kind = .identifier)
    (hp : Program.ofTokens tokens streamFile = .ok p) :
    p.reread = .ok p ↔ ∀ e ∈ p.body, ∀ n ∈ e.nodes, n.Printable := by
  have hl := legible_of_ofTokens ht hdef hp
  constructor
  · intro h
    unfold Program.reread at h
    obtain ⟨os, c', hos, heq⟩ := (ofSource_eq_ok_iff (Program.scan_text hl)).1 h
    have hbody : os.reduceOption = p.body := by rw [heq]
    exact printable_of_statements hl hbody hos
  · exact fun h => Program.ofSource_text hl h shellFile shellFile

/-- A called condition may stand before a branch in parentheses. -/
theorem reread_eq_ok_iff_called :
    let source := "if f(1)(2) (a + b) else def g(int x) x"
    let tokens : List Token := [⟨.keyword, "if", ⟨0, 2, "s"⟩⟩, ⟨.identifier, "f", ⟨3, 4, "s"⟩⟩,
      ⟨.punctuation, "(", ⟨4, 5, "s"⟩⟩, ⟨.number, "1", ⟨5, 6, "s"⟩⟩,
      ⟨.punctuation, ")", ⟨6, 7, "s"⟩⟩, ⟨.punctuation, "(", ⟨7, 8, "s"⟩⟩,
      ⟨.number, "2", ⟨8, 9, "s"⟩⟩, ⟨.punctuation, ")", ⟨9, 10, "s"⟩⟩,
      ⟨.punctuation, "(", ⟨11, 12, "s"⟩⟩, ⟨.identifier, "a", ⟨12, 13, "s"⟩⟩,
      ⟨.operator, "+", ⟨14, 15, "s"⟩⟩, ⟨.identifier, "b", ⟨16, 17, "s"⟩⟩,
      ⟨.punctuation, ")", ⟨17, 18, "s"⟩⟩, ⟨.keyword, "else", ⟨19, 23, "s"⟩⟩,
      ⟨.keyword, "def", ⟨24, 27, "s"⟩⟩, ⟨.identifier, "g", ⟨28, 29, "s"⟩⟩,
      ⟨.punctuation, "(", ⟨29, 30, "s"⟩⟩, ⟨.identifier, "int", ⟨30, 33, "s"⟩⟩,
      ⟨.identifier, "x", ⟨34, 35, "s"⟩⟩, ⟨.punctuation, ")", ⟨35, 36, "s"⟩⟩,
      ⟨.identifier, "x", ⟨37, 38, "s"⟩⟩, ⟨.eof, "EOF", ⟨38, 38, "s"⟩⟩]
    let p : Program := ⟨[.ifThenElse
      (.call (.call (.symbol "f") [.number 1]) [.number 2])
      (.binary "+" (.symbol "a") (.symbol "b"))
      (.function "g" [⟨"int", some "x"⟩] (.symbol "x"))]⟩
    tokenize source "s" = .ok tokens ∧
      tokens.IsChain (fun t u => t.isWord .keyword "def" = true → u.kind = .identifier) ∧
      Program.ofTokens tokens "s" = .ok p ∧
      (p.reread = .ok p ↔ ∀ e ∈ p.body, ∀ n ∈ e.nodes, n.Printable) ∧ p.reread = .ok p := by
  intro source tokens p
  have ht : tokenize source "s" = .ok tokens := by decide +kernel
  have hdef : tokens.IsChain fun t u => t.isWord .keyword "def" = true → u.kind = .identifier := by
    decide
  have hp : Program.ofTokens tokens "s" = .ok p := by decide +kernel
  have hiff := reread_eq_ok_iff ht hdef hp
  have hprintable : ∀ e ∈ p.body, ∀ n ∈ e.nodes, n.Printable := by decide +kernel
  exact ⟨ht, hdef, hp, hiff, hiff.2 hprintable⟩

/-- A condition takes a branch in parentheses for its arguments, so that not every text is
read again. -/
theorem not_forall_reread_eq_ok :
    ¬∀ (source file streamFile : String) (tokens : List Token) (p : Program),
      tokenize source file = .ok tokens →
      tokens.IsChain (fun t u => t.isWord .keyword "def" = true → u.kind = .identifier) →
      Program.ofTokens tokens streamFile = .ok p → p.reread = .ok p := by
  intro h
  let tokens : List Token := [⟨.keyword, "if", ⟨0, 2, "s"⟩⟩, ⟨.identifier, "c", ⟨3, 4, "s"⟩⟩,
    ⟨.identifier, "a", ⟨5, 6, "s"⟩⟩, ⟨.operator, "+", ⟨7, 8, "s"⟩⟩,
    ⟨.identifier, "b", ⟨9, 10, "s"⟩⟩, ⟨.eof, "EOF", ⟨10, 10, "s"⟩⟩]
  let p : Program := ⟨[.ifThen (.symbol "c") (.binary "+" (.symbol "a") (.symbol "b"))]⟩
  have ht : tokenize "if c a + b" "s" = .ok tokens := by decide +kernel
  have hp : Program.ofTokens tokens "s" = .ok p := by decide +kernel
  have hreread : p.reread ≠ .ok p := by decide +kernel
  exact hreread (h _ _ _ _ _ ht (by decide) hp)

end ExprLang
