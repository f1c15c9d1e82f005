import ExprLang.Position

/-!
# Texts of files

A path is a list of components. Its last one names the file in messages, and the
file's bytes are its text in UTF-8. Where a path leads to no text there is a reason,
which is worded as the system words it.
-/
namespace ExprLang

/-- The components of a path. Empty ones and single dots lead nowhere. -/
def pathComponents (path : String) : List String :=
  (path.splitOn "/").filter fun part => part ≠ "" ∧ part ≠ "."

/-- The last component of a path. A path that names no file is taken for the shell. -/
def baseName (path : String) : String :=
  match (pathComponents path).getLast? with
  | none => shellFile
  | some name => if name = ".." then shellFile else name

/-- Why there is no text to be had from a file. -/
inductive ReadFailure where
  | missing
  | denied
  | notDirectory
  | isDirectory
  | nameTooLong
  | invalidText
  /-- A reason of the system and its number. -/
  | other (code : Nat) (reason : String)
  deriving DecidableEq, Repr

namespace ReadFailure

/-- A reason of the system with its number. -/
def systemText (reason : String) (code : Nat) : String :=
  reason ++ " (os error " ++ code.repr ++ ")"

def text : ReadFailure → String
  | missing => systemText "No such file or directory" 2
  | denied => systemText "Permission denied" 13
  | notDirectory => systemText "Not a directory" 20
  | isDirectory => systemText "Is a directory" 21
  | nameTooLong => systemText "File name too long" 36
  | invalidText => "stream did not contain valid UTF-8"
  | other code reason => systemText reason code

/-- The failure with a number of the system. -/
def ofCode (code : Nat) (reason : String) : ReadFailure :=
  ([(2, missing), (13, denied), (20, notDirectory), (21, isDirectory),
    (36, nameTooLong)].lookup code).getD (.other code reason)

end ReadFailure

/-- The text of a file's bytes. -/
def readText (bytes : ByteArray) : Except ReadFailure String :=
  match String.fromUTF8? bytes with
  | some text => .ok text
  | none => .error .invalidText

end ExprLang
