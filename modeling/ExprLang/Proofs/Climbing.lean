import ExprLang.Proofs.Contexts
import ExprLang.Proofs.Rereading
import Mathlib.Data.List.TakeWhile

/-!
# Precedence

A chain of operators is read as the one tree that respects their strengths: from left to right
it shows the operands and operators of the chain, and no operation has a weaker one among its
operands, nor one that is as weak as itself to its right.
-/
namespace ExprLang

/-- How strongly an operator binds, not at all if there is no such operator. -/
def strengthOf (operator : String) : ℕ := (precedence? operator).getD 0

namespace Expr

/-- The operands and operators of a tree from left to right. -/
def inorder : Expr → List (Expr ⊕ String)
  | assignment operator left right => inorder left ++ .inr operator :: inorder right
  | binary operator left right => inorder left ++ .inr operator :: inorder right
  | e => [.inl e]

/-- The operators of a tree from left to right. -/
def operators (e : Expr) : List String := e.inorder.filterMap Sum.getRight?

/-- An operator is as weak as any to its left, and weaker than those to its right. -/
def Ranked (operator : String) (left right : Expr) : Prop :=
  (∀ o ∈ left.operators, strengthOf operator ≤ strengthOf o) ∧
    ∀ o ∈ right.operators, strengthOf operator < strengthOf o

/-- The operator of a node is ranked between its operands, and makes an assignment if it is the
operator for that. -/
def Graded : Expr → Prop
  | assignment operator left right => operator = assignmentOperator ∧ Ranked operator left right
  | binary operator left right => operator ≠ assignmentOperator ∧ Ranked operator left right
  | _ => True

section Joined

variable {operator o : String} {left right e : Expr}

theorem mem_operators : o ∈ e.operators ↔ .inr o ∈ e.inorder := by
  simp [operators, List.mem_filterMap]

@[simp] theorem inorder_joined : (joined operator left right).inorder =
    left.inorder ++ .inr operator :: right.inorder := by
  unfold joined
  split_ifs <;> rfl

theorem mem_operators_joined : o ∈ (joined operator left right).operators ↔
    o ∈ left.operators ∨ o = operator ∨ o ∈ right.operators := by
  simp [mem_operators]

theorem graded_joined : (joined operator left right).Graded ↔ Ranked operator left right := by
  unfold joined
  split_ifs with h <;> simp [Graded, h]

theorem forall_graded_joined : (∀ n ∈ (joined operator left right).nodes, n.Graded) ↔
    Ranked operator left right ∧ (∀ n ∈ left.nodes, n.Graded) ∧ ∀ n ∈ right.nodes, n.Graded := by
  rw [forall_mem_nodes, graded_joined, children_joined]
  simp

/-- A graded node joins two operands, or is an operand itself. -/
theorem Graded.cases (h : e.Graded) :
    (∃ operator left right, e = joined operator left right) ∨ e.inorder = [.inl e] := by
  cases e with
  | assignment operator left right =>
    obtain ⟨rfl, -⟩ := h
    exact .inl ⟨assignmentOperator, left, right, by simp [joined]⟩
  | binary operator left right => exact .inl ⟨operator, left, right, by simp [joined, h.1]⟩
  | _ => exact .inr rfl

/-- Of two operators in one text, the first cannot have the second among those to its right while
the second has the first among those to its left. -/
theorem not_ranked_of_overlap {left' right' : Expr} {middle : List (Expr ⊕ String)}
    (h : Ranked operator left right) (h' : Ranked o left' right')
    (hleft : left'.inorder = left.inorder ++ .inr operator :: middle)
    (hright : right.inorder = middle ++ .inr o :: right'.inorder) : False := by
  have hle := h'.1 operator (by simp [mem_operators, hleft])
  have hlt := h.2 o (by simp [mem_operators, hright])
  omega

/-- Where two operations read alike, so do their parts. -/
theorem parts_eq {left' right' : Expr} (h : Ranked operator left right)
    (h' : Ranked o left' right')
    (heq : left.inorder ++ .inr operator :: right.inorder =
      left'.inorder ++ .inr o :: right'.inorder) :
    left.inorder = left'.inorder ∧ operator = o ∧ right.inorder = right'.inorder := by
  -- If the operators stood at different places, each would be in an operand of the other.
  obtain ⟨middle, hleft, hright⟩ | ⟨middle, hleft, hright⟩ := List.append_eq_append_iff.1 heq
  · cases middle with
    | nil => simp_all
    | cons x middle =>
      obtain ⟨rfl, hmiddle⟩ := List.cons.inj hright
      exact (not_ranked_of_overlap h h' hleft hmiddle).elim
  · cases middle with
    | nil => simp_all
    | cons x middle =>
      obtain ⟨rfl, hmiddle⟩ := List.cons.inj hright
      exact (not_ranked_of_overlap h' h hleft hmiddle).elim

end Joined

/-- There is one graded tree at most that reads as given from left to right. -/
theorem eq_of_inorder_eq {S T : Expr} (hS : ∀ n ∈ S.nodes, n.Graded)
    (hT : ∀ n ∈ T.nodes, n.Graded) (h : S.inorder = T.inorder) : S = T := by
  induction S using induction_on_children generalizing T with
  | h S ih =>
    obtain ⟨o, l, r, rfl⟩ | hs := (forall_mem_nodes.1 hS).1.cases <;>
      obtain ⟨o', l', r', rfl⟩ | ht := (forall_mem_nodes.1 hT).1.cases
    · obtain ⟨hrank, hl, hr⟩ := forall_graded_joined.1 hS
      obtain ⟨hrank', hl', hr'⟩ := forall_graded_joined.1 hT
      obtain ⟨hleft, rfl, hright⟩ := parts_eq hrank hrank' (by simpa using h)
      rw [ih l (by simp [children_joined]) hl hl' hleft,
        ih r (by simp [children_joined]) hr hr' hright]
    · have hmem : Sum.inr o ∈ T.inorder := by simp [← h]
      simp [ht] at hmem
    · have hmem : Sum.inr o' ∈ S.inorder := by simp [h]
      simp [hs] at hmem
    · simpa [hs, ht] using h

/-- A graded tree that is one operand. -/
structure Plain (e : Expr) : Prop where
  inorder : e.inorder = [.inl e]
  graded : ∀ n ∈ e.nodes, n.Graded

end Expr

/-- The operators and operands of links from left to right. -/
def linksInorder (ls : List Link) : List (Expr ⊕ String) :=
  ls.flatMap fun l => [.inr l.operator, .inl l.operand]

/-- A link to one operand, with the strength of its operator. -/
structure Link.Proper (l : Link) : Prop where
  operand : l.operand.Plain
  strength : strengthOf l.operator = l.strength

section Chains

variable {first : Expr} {ls : List Link}

theorem mem_linksInorder {o : String} :
    .inr o ∈ linksInorder ls ↔ ∃ l ∈ ls, o = l.operator := by
  simp [linksInorder]

/-- The tree of a chain is graded and reads as the chain, if its first operand is graded and has
no operators that are weaker than the first link. -/
theorem graded_ofChain (hfirst : ∀ n ∈ first.nodes, n.Graded)
    (hstrong : ∀ o ∈ first.operators, ∀ l ∈ ls.head?, l.strength ≤ strengthOf o)
    (hls : ∀ l ∈ ls, l.Proper) : (∀ n ∈ (ofChain first ls).nodes, n.Graded) ∧
      (ofChain first ls).inorder = first.inorder ++ linksInorder ls := by
  induction first, ls using ofChain_induction_of_strength with
  | nil first => exact ⟨hfirst, by simp [linksInorder]⟩
  | cons first l front back right tree hfront hback hright htree =>
    simp only [List.forall_mem_cons, List.forall_mem_append] at hls
    obtain ⟨hl, hlsFront, hlsBack⟩ := hls
    have hnone : ∀ o, o ∉ l.operand.operators := by
      simp [Expr.mem_operators, hl.operand.inorder]
    obtain ⟨hgraded, hreads⟩ :=
      hright hl.operand.graded (fun o ho => (hnone o ho).elim) hlsFront
    have hstronger : ∀ o ∈ right.operators, l.strength < strengthOf o := by
      intro o ho
      rw [Expr.mem_operators, hreads, hl.operand.inorder, List.singleton_append,
        List.mem_cons, mem_linksInorder] at ho
      obtain ⟨m, hm, rfl⟩ := ho.resolve_left Sum.inr_ne_inl
      exact (hlsFront m hm).strength.symm ▸ hfront m hm
    have hrank : Expr.Ranked l.operator first right := by
      rw [Expr.Ranked, hl.strength]
      exact ⟨fun o ho => hstrong o ho l rfl, hstronger⟩
    have hjoined : ∀ o ∈ (joined l.operator first right).operators, ∀ m ∈ back.head?,
        m.strength ≤ strengthOf o := by
      intro o ho m hm
      refine (hback m hm).trans ?_
      rcases Expr.mem_operators_joined.1 ho with ho | rfl | ho
      · exact hstrong o ho l rfl
      · exact hl.strength.ge
      · exact (hstronger o ho).le
    obtain ⟨htreeGraded, htreeReads⟩ :=
      htree (Expr.forall_graded_joined.2 ⟨hrank, hfirst, hgraded⟩) hjoined hlsBack
    refine ⟨htreeGraded, ?_⟩
    rw [htreeReads, Expr.inorder_joined, hreads, hl.operand.inorder]
    simp [linksInorder]

/-- The tree of a chain is the only graded one that reads as the chain. -/
theorem eq_ofChain_iff (hfirst : first.Plain) (hls : ∀ l ∈ ls, l.Proper) (T : Expr) :
    T = ofChain first ls ↔
      T.inorder = .inl first :: linksInorder ls ∧ ∀ n ∈ T.nodes, n.Graded := by
  have hnone : ∀ o, o ∉ first.operators := by simp [Expr.mem_operators, hfirst.inorder]
  obtain ⟨hgraded, hreads⟩ :=
    graded_ofChain hfirst.graded (fun o ho => (hnone o ho).elim) hls
  rw [hfirst.inorder, List.singleton_append] at hreads
  constructor
  · rintro rfl
    exact ⟨hreads, hgraded⟩
  · rintro ⟨hT, hgradedT⟩
    exact Expr.eq_of_inorder_eq hgradedT hgraded (hT.trans hreads.symm)

/-- A chain that does not get stronger folds to the left. -/
theorem ofChain_eq_foldl (h : ls.Pairwise fun l m => m.strength ≤ l.strength) :
    ofChain first ls = ls.foldl (fun left l => joined l.operator left l.operand) first := by
  induction ls generalizing first with
  | nil => rfl
  | cons l ls ih =>
    obtain ⟨hl, hls⟩ := List.pairwise_cons.1 h
    have hcons : ofChain first (l :: ([] ++ ls)) =
        ofChain (joined l.operator first (ofChain l.operand [])) ls :=
      ofChain_cons nofun fun m hm => hl m (List.mem_of_mem_head? hm)
    rw [List.foldl_cons, ← ih hls]
    simpa using hcons

example : ofChain (.symbol "a") [⟨"=", 1, .symbol "b"⟩, ⟨"=", 1, .symbol "c"⟩] =
    .assignment "=" (.assignment "=" (.symbol "a") (.symbol "b")) (.symbol "c") := rfl

end Chains

open ExprLang.Parser Cursor

/-- A token that is an operand by itself. -/
inductive IsOperand (t : Token) : Expr → Prop
  | name (hk : t.kind = .identifier) : IsOperand t (.symbol t.value)
  | string (hk : t.kind = .string) : IsOperand t (.string t.value)
  | character (hk : t.kind = .character) :
    IsOperand t (.character ((t.firstChar.map Char.val).getD 0))
  | number {n : Int32} (hk : t.kind = .number) (hn : numeral? t.value = some n) :
    IsOperand t (.number n)
  | truth (b : Bool) (hk : t.kind = .keyword) (hb : t.value = Expr.booleanText b) :
    IsOperand t (.boolean b)

/-- The tokens of links, an operator of the language and an operand for each. -/
inductive LinkTokens : List Link → List Token → Prop
  | nil : LinkTokens [] []
  | cons {l : Link} {ls : List Link} {o t : Token} {ts : List Token} (hk : o.kind = .operator)
    (hv : o.value = l.operator) (hp : precedence? l.operator = some l.strength)
    (ht : IsOperand t l.operand) (h : LinkTokens ls ts) : LinkTokens (l :: ls) (o :: t :: ts)

section Climbing

variable {t : Token} {e : Expr} {ls : List Link} {ts : List Token} {c : Cursor}

theorem IsOperand.plain (h : IsOperand t e) : e.Plain := by
  cases h <;> exact ⟨rfl, by simp [Expr.nodes, Expr.Graded]⟩

theorem IsOperand.reads (h : IsOperand c.current e) : Reads (.unit (some e)) c c.next := by
  cases h with
  | name hk => exact .terminal (by simp [Rule.terminalValue, hk])
  | string hk => exact .terminal (by simp [Rule.terminalValue, hk])
  | character hk => exact .terminal (by simp [Rule.terminalValue, hk])
  | number hk hn => exact .terminal (by simp [Rule.terminalValue, hk, hn])
  | truth b hk hb =>
    have hunit := Reads.boolean (c := c)
      (by cases b <;> simp_all [Token.isWord, Expr.booleanText])
    cases b <;> simpa [hb, Expr.booleanText] using hunit

theorem LinkTokens.proper (h : LinkTokens ls ts) : ∀ l ∈ ls, l.Proper := by
  induction h with
  | nil => nofun
  | cons _ _ hp ht _ ih => exact List.forall_mem_cons.2 ⟨⟨ht.plain, by simp [strengthOf, hp]⟩, ih⟩

theorem LinkTokens.pos (h : LinkTokens ls ts) : ∀ l ∈ ls, 0 < l.strength := by
  induction h with
  | nil => nofun
  | cons _ _ hp _ _ ih => exact List.forall_mem_cons.2 ⟨pos_of_precedence? hp, ih⟩

/-- No arguments follow an operand that links follow. -/
theorem LinkTokens.isMark_current_push (h : LinkTokens ls ts)
    (hm : c.current.isMark '(' = false) : (push ts c).current.isMark '(' = false := by
  cases h with
  | nil => exact hm
  | cons hk => simp [Token.isMark, hk]

/-- The links are read up to the first whose operator is too weak. -/
theorem LinkTokens.reads (h : LinkTokens ls ts) (hk : c.current.kind ≠ .operator)
    (hm : c.current.isMark '(' = false) (floor : ℕ) :
    Reads (.links floor (ls.takeWhile fun l => floor < l.strength)) (push ts c)
      ((push ts c).drop (2 * (ls.takeWhile fun l => floor < l.strength).length)) := by
  induction h with
  | nil => exact .noOperator hk
  | @cons l ls o t ts ho hv hp ht hls ih =>
    obtain ⟨operator, strength, operand⟩ := l
    obtain rfl : o.value = operator := hv
    by_cases hs : floor < strength
    · have hatom : Reads (.atom (some operand)) (push (t :: ts) c) (push ts c) :=
        .atom (IsOperand.reads ht) (.uncalled (hls.isMark_current_push hm))
      have hdrop : ∀ n, (push (o :: t :: ts) c).drop (2 * (n + 1)) = (push ts c).drop (2 * n) :=
        fun n => by simp [push, Cursor.drop, Nat.mul_succ]
      rw [List.takeWhile_cons_of_pos (by simpa using hs), List.length_cons, hdrop]
      exact .link (c := push (o :: t :: ts) c) ho hp hs hatom ih
    · rw [List.takeWhile_cons_of_neg (by simpa using hs)]
      exact .weakOperator (c := push (o :: t :: ts) c) ho hp (not_lt.1 hs)

end Climbing

/-- Behind an operand, links are joined to the only tree that respects the strengths of their
operators, up to the first link that is as weak as the floor. Links of one strength fold to the
left, and with floor 0 all links are taken. -/
theorem chained_of_linkTokens {t : Token} {first : Expr} {ls : List Link} {ts : List Token}
    {c : Cursor} (hfirst : IsOperand t first) (hls : LinkTokens ls ts)
    (hk : c.current.kind ≠ .operator) (hm : c.current.isMark '(' = false) (floor : ℕ) :
    let taken := ls.takeWhile fun l => floor < l.strength
    ∃ tree, Parser.chained floor first (push ts c) =
        .ok tree ((push ts c).drop (2 * taken.length)) ∧
      (∀ T, T = tree ↔
        T.inorder = .inl first :: linksInorder taken ∧ ∀ n ∈ T.nodes, n.Graded) ∧
      (∀ strength, (∀ l ∈ taken, l.strength = strength) →
        tree = taken.foldl (fun left l => joined l.operator left l.operand) first) ∧
      (floor = 0 → taken = ls) := by
  intro taken
  have hreads := hls.reads hk hm floor
  have hproper : ∀ l ∈ taken, l.Proper := fun l hl =>
    hls.proper l (List.takeWhile_subset _ hl)
  refine ⟨ofChain first taken, ?_, eq_ofChain_iff hfirst.plain hproper, ?_, ?_⟩
  · exact Rule.chained_eq_ok.2 ⟨taken, reads_iff.1 hreads, rfl⟩
  · intro strength hstrength
    refine ofChain_eq_foldl (List.pairwise_of_forall_mem_list fun l hl m hm => ?_)
    rw [hstrength l hl, hstrength m hm]
  · rintro rfl
    exact List.takeWhile_eq_self_iff.2 fun l hl => by simpa using hls.pos l hl

/-- Operators of three strengths before one as weak as the floor, and a semicolon behind them. -/
theorem chained_of_linkTokens_mixed :
    let first := Expr.symbol "a"
    let ts := [.detached .operator "-", .detached .number "2", .detached .operator "*",
      .detached .character "'", .detached .operator "-", .detached .keyword "true",
      .detached .operator "==", .detached .string "s"]
    let taken : List Link :=
      [⟨"-", 10, .number 2⟩, ⟨"*", 20, .character 39⟩, ⟨"-", 10, .boolean true⟩]
    let c := Cursor.ofTokens [.detached .punctuation ";"]
    ∃ tree, Parser.chained 7 first (push ts c) = .ok tree ((push ts c).drop 6) ∧
      (∀ T, T = tree ↔
        T.inorder = .inl first :: linksInorder taken ∧ ∀ n ∈ T.nodes, n.Graded) ∧
      (∀ strength, (∀ l ∈ taken, l.strength = strength) →
        tree = taken.foldl (fun left l => joined l.operator left l.operand) first) ∧
      (7 = 0 → taken = taken ++ [⟨"==", 7, .string "s"⟩]) := by
  intro first ts taken c
  have hfirst : IsOperand (.detached .identifier "a") first := .name rfl
  have hls : LinkTokens (taken ++ [⟨"==", 7, .string "s"⟩]) ts :=
    .cons rfl rfl rfl (.number rfl (by decide +kernel)) <|
      .cons rfl rfl rfl (.character rfl) <| .cons rfl rfl rfl (.truth true rfl rfl) <|
        .cons rfl rfl rfl (.string rfl) .nil
  exact chained_of_linkTokens hfirst hls (by decide) (by decide) 7

end ExprLang
