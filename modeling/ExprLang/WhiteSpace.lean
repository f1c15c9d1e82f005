import ExprLang.CharTable

/-!
# White space

The White_Space property of Unicode separates tokens, and is trimmed from the
end of a source line that is shown in a report.
-/
namespace ExprLang

/-- The characters with the White_Space property. -/
def whiteSpace : CharTable :=
  [(0x9, 0xd), (0x20, 0x20), (0x85, 0x85), (0xa0, 0xa0), (0x1680, 0x1680), (0x2000, 0x200a),
   (0x2028, 0x2029), (0x202f, 0x202f), (0x205f, 0x205f), (0x3000, 0x3000)]

def isBlank (c : Char) : Bool := whiteSpace.contains c

end ExprLang
