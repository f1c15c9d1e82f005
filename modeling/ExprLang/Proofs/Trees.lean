import ExprLang.Expr.Basic
import Mathlib.Tactic

/-!
# Nodes of trees

The nodes of a tree at any depth, and induction on trees by the children of a node.
-/
namespace ExprLang.Expr

/-- The trees right below the root. -/
def children : Expr → List Expr
  | assignment _ assignee value => [assignee, value]
  | binary _ left right => [left, right]
  | ifThen condition thenBranch => [condition, thenBranch]
  | ifThenElse condition thenBranch elseBranch => [condition, thenBranch, elseBranch]
  | function _ _ body => [body]
  | closure _ body => [body]
  | call callee arguments => callee :: arguments
  | block body => body
  | _ => []

theorem sizeOf_lt_of_mem_children {e c : Expr} (h : c ∈ e.children) : sizeOf c < sizeOf e := by
  have hlist : ∀ {es : List Expr}, c ∈ es → sizeOf c < sizeOf es := List.sizeOf_lt_of_mem
  cases e with
  | call callee arguments =>
    rcases List.mem_cons.1 h with rfl | h
    · simp +arith
    · have := hlist h
      simp only [call.sizeOf_spec]
      omega
  | block body =>
    have : sizeOf c < sizeOf body := hlist h
    simp only [block.sizeOf_spec]
    omega
  | assignment | binary | ifThen | ifThenElse | function | closure =>
    simp only [children, List.mem_cons, List.not_mem_nil, or_false] at h
    rcases h with rfl | rfl | rfl <;> simp +arith
  | _ => simp [children] at h

/-- What holds of a tree if it holds of its children holds of every tree. -/
@[elab_as_elim]
theorem induction_on_children {motive : Expr → Prop} (e : Expr)
    (h : ∀ e, (∀ c ∈ e.children, motive c) → motive e) : motive e := by
  induction hn : sizeOf e using Nat.strongRecOn generalizing e with
  | ind n ih => exact h e fun c hc => ih _ (hn ▸ sizeOf_lt_of_mem_children hc) c rfl

mutual

/-- The nodes of a tree, each seen as the tree below it. -/
def nodes : Expr → List Expr
  | number value => [number value]
  | string value => [string value]
  | character code => [character code]
  | boolean value => [boolean value]
  | symbol name => [symbol name]
  | assignment operator assignee value =>
    assignment operator assignee value :: (nodes assignee ++ nodes value)
  | binary operator left right => binary operator left right :: (nodes left ++ nodes right)
  | ifThen condition thenBranch =>
    ifThen condition thenBranch :: (nodes condition ++ nodes thenBranch)
  | ifThenElse condition thenBranch elseBranch =>
    ifThenElse condition thenBranch elseBranch ::
      (nodes condition ++ nodes thenBranch ++ nodes elseBranch)
  | function name params body => function name params body :: nodes body
  | external name params => [external name params]
  | closure params body => closure params body :: nodes body
  | call callee arguments => call callee arguments :: (nodes callee ++ nodesOf arguments)
  | block body => block body :: nodesOf body

/-- The nodes of trees. -/
def nodesOf : List Expr → List Expr
  | [] => []
  | e :: es => nodes e ++ nodesOf es

end

theorem nodesOf_eq_flatMap (es : List Expr) : nodesOf es = es.flatMap nodes := by
  induction es with
  | nil => rfl
  | cons e es ih => simp [nodesOf, ih]

theorem nodes_eq (e : Expr) : e.nodes = e :: e.children.flatMap nodes := by
  cases e <;> simp [nodes, children, nodesOf_eq_flatMap]

/-- A condition on every node is one on the root and on the nodes of its children. -/
theorem forall_mem_nodes {P : Expr → Prop} {e : Expr} :
    (∀ n ∈ e.nodes, P n) ↔ P e ∧ ∀ c ∈ e.children, ∀ n ∈ c.nodes, P n := by
  rw [nodes_eq]
  simp only [List.forall_mem_cons, List.mem_flatMap]
  exact and_congr_right fun _ =>
    ⟨fun h c hc n hn => h n ⟨c, hc, hn⟩, fun h n ⟨c, hc, hn⟩ => h c hc n hn⟩

/-- How many argument lists a tree ends with. -/
def callDepth : Expr → ℕ
  | call callee _ => callDepth callee + 1
  | _ => 0

end ExprLang.Expr
