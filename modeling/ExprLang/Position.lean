/-!
# Positions

Places in a source are byte offsets into its UTF-8 form, kept in 32 bits together
with the name of the file. Tokens that come from no source carry a file name
reserved for that purpose.
-/
namespace ExprLang

/-- The file name of a source that was typed in rather than read from a file. -/
def shellFile : String := "shell"

/-- The file name that marks a place as unknown. -/
def nullFile : String := "<null>"

/-- A byte offset into a named source. -/
structure Position where
  offset : UInt32
  file : String
  deriving DecidableEq, Repr

namespace Position

def null : Position := ⟨0, nullFile⟩

/-- Unknown places are recognised by their file name alone. -/
def isNull (p : Position) : Bool := p.file == nullFile

@[simp] theorem isNull_null : null.isNull = true := rfl

end Position

/-- The bytes from `start` up to `stop`, which is left out. -/
structure Span where
  start : UInt32
  stop : UInt32
  file : String
  deriving DecidableEq, Repr

namespace Span

def null : Span := ⟨0, 0, nullFile⟩

/-- Where a span begins. -/
def position (s : Span) : Position := ⟨s.start, s.file⟩

@[simp] theorem position_null : null.position = Position.null := rfl

end Span

/-- The number of bytes of a text in UTF-8. -/
def width : List Char → Nat
  | [] => 0
  | c :: rest => c.utf8Size + width rest

@[simp] theorem width_nil : width [] = 0 := rfl

@[simp] theorem width_cons (c : Char) (rest : List Char) :
    width (c :: rest) = c.utf8Size + width rest := rfl

@[simp] theorem width_append (front back : List Char) :
    width (front ++ back) = width front + width back := by
  induction front with
  | nil => simp
  | cons c rest ih => simp [ih, Nat.add_assoc]

theorem width_pos {text : List Char} (h : text ≠ []) : 0 < width text := by
  cases text with
  | nil => exact absurd rfl h
  | cons c rest => exact Nat.lt_of_lt_of_le c.utf8Size_pos (Nat.le_add_right ..)

end ExprLang
