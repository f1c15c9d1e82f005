import ExprLang.ByteCursor
import ExprLang.Main
import ExprLang.Proofs.Agreement
import ExprLang.Proofs.Runs
import ExprLang.Proofs.RuleRuns
import ExprLang.Proofs.Recursion
import ExprLang.Proofs.Lookahead
import ExprLang.Proofs.Reading
import ExprLang.Proofs.Yield
import ExprLang.Proofs.Scanning
import ExprLang.Proofs.Spelling
import ExprLang.Proofs.WordCursor
import ExprLang.Proofs.WordLists
import ExprLang.Proofs.RoundTrip
import ExprLang.Proofs.Legibility
import ExprLang.Proofs.Grouping
import ExprLang.Proofs.Rereading
import ExprLang.Proofs.Contexts
import ExprLang.Proofs.Invariants
import ExprLang.Proofs.Blocks
import ExprLang.Proofs.Shifts
import ExprLang.Proofs.Seams
import ExprLang.Proofs.Concatenation
import ExprLang.Proofs.Tiling
import ExprLang.Proofs.Determinacy
import ExprLang.Proofs.Insertion
import ExprLang.Proofs.Nesting
import ExprLang.Proofs.Complaints
import ExprLang.Proofs.Diagnostics
import ExprLang.Proofs.Carets
import ExprLang.Proofs.Termination
import ExprLang.Proofs.Progress
import ExprLang.Proofs.ByteLexer
import ExprLang.Proofs.Climbing
import ExprLang.Proofs.Floors
import ExprLang.Proofs.LexicalErrors
import ExprLang.Proofs.Delimiting
import ExprLang.Proofs.SingleExpression
import ExprLang.Proofs.DanglingElse
import ExprLang.Proofs.CallBinding
import ExprLang.Proofs.CompleteExpressions
import ExprLang.Proofs.Absence
import ExprLang.Proofs.WordTexts
import ExprLang.Proofs.LineLookup
import ExprLang.Proofs.OutlineLayout
import ExprLang.Proofs.Patterns
