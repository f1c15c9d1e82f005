import ExprLang.OperatorChain
import Mathlib.Tactic

/-!
# Operator chains from the left

The first operator of a chain takes as its right operand what the stronger operators
behind it join, and the operation it makes is the first operand of what is left. The
stack of pending operations is not seen here any more: facts about the trees of chains
are proved by induction along this law.
-/
namespace ExprLang

variable {strength : ℕ} {stack base : List Pending} {b : Pending}

/-- Operations below a weaker one stay where they are. -/
theorem settle_append_of_lt (h : b.strength < strength) (right : Expr) :
    settle strength (stack ++ b :: base) right =
      ((settle strength stack right).1 ++ b :: base, (settle strength stack right).2) := by
  induction stack generalizing right with
  | nil => simp [settle, not_le.2 h]
  | cons p ps ih =>
    rw [List.cons_append, settle, settle]
    by_cases hp : strength ≤ p.strength
    · rw [if_pos hp, if_pos hp, ih]
    · rw [if_neg hp, if_neg hp, List.cons_append]

/-- Operations that are all strong enough are settled together. -/
theorem settle_append_of_le (h : ∀ p ∈ stack, strength ≤ p.strength) (right : Expr) :
    settle strength (stack ++ base) right = settle strength base (settle 0 stack right).2 := by
  induction stack generalizing right with
  | nil => rfl
  | cons p ps ih =>
    rw [List.forall_mem_cons] at h
    rw [List.cons_append, settle, settle, if_pos h.1, if_pos (Nat.zero_le _), ih h.2]

theorem mem_of_mem_settle {p : Pending} {right : Expr}
    (h : p ∈ (settle strength stack right).1) : p ∈ stack := by
  induction stack generalizing right with
  | nil => exact h
  | cons q qs ih =>
    unfold settle at h
    split_ifs at h
    · exact List.mem_cons_of_mem q (ih h)
    · exact h

/-- While the links are stronger than a pending operation, nothing below it matters. -/
theorem chainTree_append {operand : Expr} {front back : List Link}
    (hstack : ∀ p ∈ stack, b.strength < p.strength) (hfront : ∀ l ∈ front, b.strength < l.strength)
    (hback : ∀ l ∈ back.head?, l.strength ≤ b.strength) :
    chainTree (stack ++ b :: base) operand (front ++ back) =
      chainTree (b :: base) (chainTree stack operand front) back := by
  induction front generalizing stack operand with
  | nil =>
    cases back with
    | nil =>
      have h : settle 0 (stack ++ b :: base) operand =
          settle 0 (b :: base) (settle 0 stack operand).2 :=
        settle_append_of_le (fun p _ => Nat.zero_le p.strength) operand
      simp only [List.nil_append, chainTree, h]
    | cons l back =>
      have hl : l.strength ≤ b.strength := hback l (by simp)
      have h : settle l.strength (stack ++ b :: base) operand =
          settle l.strength (b :: base) (settle 0 stack operand).2 :=
        settle_append_of_le (fun p hp => hl.trans (hstack p hp).le) operand
      simp only [List.nil_append, chainTree, h]
  | cons l front ih =>
    rw [List.forall_mem_cons] at hfront
    have h : settle l.strength (stack ++ b :: base) operand =
        ((settle l.strength stack operand).1 ++ b :: base, (settle l.strength stack operand).2) :=
      settle_append_of_lt hfront.1 operand
    simp only [List.cons_append, chainTree, h]
    rw [← List.cons_append]
    refine ih ?_ hfront.2
    rw [List.forall_mem_cons]
    exact ⟨hfront.1, fun p hp => hstack p (mem_of_mem_settle hp)⟩

/-- The first operator of a chain takes what the stronger operators behind it join. -/
theorem ofChain_cons {first : Expr} {l : Link} {front back : List Link}
    (hfront : ∀ m ∈ front, l.strength < m.strength)
    (hback : ∀ m ∈ back.head?, m.strength ≤ l.strength) :
    ofChain first (l :: (front ++ back)) =
      ofChain (joined l.operator first (ofChain l.operand front)) back := by
  let b : Pending := ⟨first, l.operator, l.strength⟩
  have hstart : ofChain first (l :: (front ++ back)) =
      chainTree [b] l.operand (front ++ back) := rfl
  have hsplit : chainTree ([] ++ b :: []) l.operand (front ++ back) =
      chainTree [b] (ofChain l.operand front) back := chainTree_append nofun hfront hback
  rw [List.nil_append] at hsplit
  rw [hstart, hsplit]
  cases back with
  | nil => simp [chainTree, settle, b]
  | cons m back =>
    have hle : m.strength ≤ l.strength := hback m (by simp)
    simp [ofChain, chainTree, settle, b, hle]

/-- Facts about the trees of chains are proved operator by operator. The links behind the first
one are split where its right operand ends: those in front of that are stronger than it, the next
one is not. -/
@[elab_as_elim]
theorem ofChain_induction_of_strength {motive : Expr → List Link → Expr → Prop}
    (nil : ∀ first, motive first [] first)
    (cons : ∀ first l front back right tree, (∀ m ∈ front, l.strength < m.strength) →
      (∀ m ∈ back.head?, m.strength ≤ l.strength) → motive l.operand front right →
      motive (joined l.operator first right) back tree → motive first (l :: (front ++ back)) tree)
    (first : Expr) (ls : List Link) : motive first ls (ofChain first ls) := by
  induction hn : ls.length using Nat.strongRecOn generalizing first ls with
  | ind n ih =>
    cases ls with
    | nil => exact nil first
    | cons l ls =>
      obtain ⟨front, back, rfl, hfront, hback⟩ : ∃ front back, ls = front ++ back ∧
          (∀ m ∈ front, l.strength < m.strength) ∧
          ∀ m ∈ back.head?, m.strength ≤ l.strength := by
        let stronger : Link → Bool := fun m => l.strength < m.strength
        refine ⟨ls.takeWhile stronger, ls.dropWhile stronger, by simp, ?_, ?_⟩
        · intro m hm
          simpa [stronger] using List.all_eq_true.1 List.all_takeWhile m hm
        · intro m hm
          have hnot := List.head?_dropWhile_not stronger ls
          rw [Option.mem_def.1 hm] at hnot
          simpa [stronger] using hnot
      simp only [List.length_cons, List.length_append] at hn
      rw [ofChain_cons hfront hback]
      have hright := ih front.length (by omega) l.operand front rfl
      exact cons _ _ _ _ _ _ hfront hback hright (ih back.length (by omega) _ back rfl)

/-- What holds of operands and of the operations that join them holds of the trees of
chains, whatever the strengths. -/
@[elab_as_elim]
theorem ofChain_induction {motive : Expr → List Link → Expr → Prop}
    (nil : ∀ first, motive first [] first)
    (cons : ∀ first l front back right tree, motive l.operand front right →
      motive (joined l.operator first right) back tree → motive first (l :: (front ++ back)) tree)
    (first : Expr) (ls : List Link) : motive first ls (ofChain first ls) :=
  ofChain_induction_of_strength nil (fun _ _ _ _ _ _ _ _ => cons _ _ _ _ _ _) first ls

end ExprLang
