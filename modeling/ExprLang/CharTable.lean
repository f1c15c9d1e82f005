/-!
# Tables of characters

A character property is kept as the ascending list of its runs of code points,
each given by its first and its last one.
-/
namespace ExprLang

/-- Runs of code points, each from its first to its last one. -/
abbrev CharTable := List (Nat × Nat)

/-- Membership of a character in one of the runs. -/
def CharTable.contains (table : CharTable) (c : Char) : Bool :=
  table.any fun run => run.1 ≤ c.toNat && c.toNat ≤ run.2

theorem CharTable.contains_iff {table : CharTable} {c : Char} :
    table.contains c = true ↔ ∃ run ∈ table, run.1 ≤ c.toNat ∧ c.toNat ≤ run.2 := by
  simp [CharTable.contains]

end ExprLang
