import ExprLang.Position

/-!
# Byte cursors

A place in a source that moves by bytes. It may be moved past the end or into the
middle of a character, where nothing can be read; only its position and spans from
it are known there. Offsets are counted in 64 bits and shown in 32.
-/
namespace ExprLang

structure ByteCursor where
  source : String
  file : String
  offset : Nat
  deriving DecidableEq, Repr

/-- What is left of a text behind its first `n` bytes, if a character begins there
or the text ends. -/
def dropBytes : Nat → List Char → Option (List Char)
  | 0, text => some text
  | _ + 1, [] => none
  | n + 1, c :: rest => if c.utf8Size ≤ n + 1 then dropBytes (n + 1 - c.utf8Size) rest else none

namespace ByteCursor

def start (source file : String) : ByteCursor := ⟨source, file, 0⟩

/-- The offset `n` bytes further on, if it can be counted. -/
def offsetAfter (c : ByteCursor) (n : Nat) : Option Nat :=
  if c.offset + n < UInt64.size then some (c.offset + n) else none

/-- The cursor `n` bytes further on. -/
def advance? (c : ByteCursor) (n : Nat) : Option ByteCursor :=
  (c.offsetAfter n).map fun offset => { c with offset := offset }

/-- The text from the cursor on, where it can be read. -/
def remainder (c : ByteCursor) : Option (List Char) := dropBytes c.offset c.source.toList

/-- The character at the cursor, the null character at the end. -/
def at? (c : ByteCursor) : Option Char := c.remainder.map fun text => text.headD '\x00'

def atEnd (c : ByteCursor) : Bool := width c.source.toList ≤ c.offset

def position (c : ByteCursor) : Position := ⟨.ofNat c.offset, c.file⟩

/-- The next `n` bytes. -/
def span? (c : ByteCursor) (n : Nat) : Option Span :=
  (c.offsetAfter n).map fun stop => ⟨.ofNat c.offset, .ofNat stop, c.file⟩

end ByteCursor

end ExprLang
