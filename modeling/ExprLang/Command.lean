import ExprLang.Expr.Outline
import ExprLang.FileText
import ExprLang.Grammar.Program
import ExprLang.Indentation
import ExprLang.Report

/-!
# Commands

What the commands print for a source file: its syntax tree in one of two forms, or
its tokens. A file that cannot be read or has a syntax error leads to a message and
a failing exit code.
-/
namespace ExprLang

/-- How a syntax tree is printed: as source text, or as an outline over several lines. -/
inductive TreeFormat where
  | tree
  | debug
  deriving DecidableEq, Repr

def TreeFormat.ofName? : String → Option TreeFormat
  | "tree" => some .tree
  | "debug" => some .debug
  | _ => none

inductive Command where
  | parse (format : TreeFormat)
  | tokens
  deriving DecidableEq, Repr

/-- What a command leaves behind. -/
structure Outcome where
  code : UInt8
  output : String
  errors : String
  deriving DecidableEq, Repr

namespace Outcome

def success (output : String) : Outcome := ⟨0, output, ""⟩

def failure (errors : String) : Outcome := ⟨1, "", errors⟩

end Outcome

/-- A program in one of the printed forms. -/
def Program.printed (p : Program) : TreeFormat → String
  | .tree => p.text
  | .debug => indented p.outline.text

namespace Command

/-- The command and the file that arguments ask for. The format may stand on either
side of the file, and is a tree by default. -/
def ofArguments? : List String → Option (Command × String)
  | ["tokens", path] => some (.tokens, path)
  | ["parse", path] => some (.parse .tree, path)
  | ["parse", "--format", name, path] => (TreeFormat.ofName? name).map (.parse ·, path)
  | ["parse", path, "--format", name] => (TreeFormat.ofName? name).map (.parse ·, path)
  | ["parse", "-f", name, path] => (TreeFormat.ofName? name).map (.parse ·, path)
  | ["parse", path, "-f", name] => (TreeFormat.ofName? name).map (.parse ·, path)
  | _ => none

/-- The forms in which a command is given. -/
def usage : String :=
  "usage: exprlang parse FILE [--format tree|debug]\n       exprlang tokens FILE\n"

/-- The output of a command for a source. -/
def output (source file : String) : Command → Except SyntaxError String
  | parse format => do
    return (← Program.ofSource source file file).printed format ++ "\n"
  | tokens => do
    return String.join ((← tokenize source file).map fun t => t.text ++ "\n")

/-- Runs a command on a file, given what could be read from it. -/
def run (command : Command) (path : String) (content : Except ReadFailure String) : Outcome :=
  match content with
  | .error why => .failure ("Failed to read " ++ path ++ ": " ++ why.text ++ "\n")
  | .ok source =>
    match command.output source (baseName path) with
    | .ok output => .success output
    | .error e => .failure (report e source path)

end Command

end ExprLang
