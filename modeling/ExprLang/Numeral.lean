/-!
# Numerals

A numeral is one or more decimal digits, with at most one sign before them. Its
value has to fit into 32 bits.
-/
namespace ExprLang

/-- The value of one or more decimal digits. -/
def decimal? (digits : List Char) : Option Nat :=
  if digits ≠ [] ∧ digits.all Char.isDigit then some (Nat.ofDigitChars 10 digits 0) else none

/-- The integer of 32 bits with a given value. -/
def int32? (value : Int) : Option Int32 :=
  if -2147483648 ≤ value ∧ value ≤ 2147483647 then some (Int32.ofInt value) else none

/-- The value of a numeral. -/
def numeral? (text : String) : Option Int32 :=
  match text.toList with
  | '-' :: digits => (decimal? digits).bind fun n => int32? (-n)
  | '+' :: digits => (decimal? digits).bind fun n => int32? n
  | digits => (decimal? digits).bind fun n => int32? n

/-- The shortest numeral of a value, signed if it is negative. -/
def numeral (value : Int32) : String := value.toInt.repr

theorem toInt_of_int32? {value : Int} {n : Int32} (h : int32? value = some n) :
    n.toInt = value := by
  unfold int32? at h
  split at h
  · next hv =>
    obtain rfl := Option.some.inj h
    exact Int32.toInt_ofInt_of_le (by omega) (by omega)
  · simp at h

@[simp] theorem int32?_toInt (n : Int32) : int32? n.toInt = some n := by
  have := n.le_toInt
  have := n.toInt_lt
  rw [int32?, if_pos (by omega), Int32.ofInt_toInt]

@[simp] theorem decimal?_toDigits (n : Nat) : decimal? (Nat.toDigits 10 n) = some n := by
  have hd : (Nat.toDigits 10 n).all Char.isDigit = true := by
    simpa using fun c => Nat.isDigit_of_mem_toDigits (by decide) (by decide)
  rw [decimal?, if_pos ⟨Nat.toDigits_ne_nil, hd⟩,
    Nat.ofDigitChars_toDigits (by decide) (by decide)]

/-- Digits alone are read as they stand. -/
theorem numeral?_of_isDigit {text : String} (h : ∀ c ∈ text.toList, c.isDigit = true) :
    numeral? text = (decimal? text.toList).bind fun n => int32? n := by
  unfold numeral?
  split
  · next ds hd => exact absurd (h '-' (by simp [hd])) (by decide)
  · next ds hd => exact absurd (h '+' (by simp [hd])) (by decide)
  · rfl

/-- Digits behind a minus sign are read as a negative value. -/
theorem numeral?_of_minus {text : String} {digits : List Char} (h : text.toList = '-' :: digits) :
    numeral? text = (decimal? digits).bind fun n => int32? (-n) := by
  simp only [numeral?, h]

/-- Every value is read back from its numeral. -/
theorem numeral?_numeral (value : Int32) : numeral? (numeral value) = some value := by
  have hi := int32?_toInt value
  rw [numeral]
  generalize value.toInt = i at hi ⊢
  cases i with
  | ofNat n =>
    have ht : (Int.ofNat n).repr.toList = Nat.toDigits 10 n := Nat.toList_repr
    rw [numeral?_of_isDigit fun c hc =>
      Nat.isDigit_of_mem_toDigits (by decide) (by decide) (ht ▸ hc), ht, decimal?_toDigits,
      Option.bind_some, ← Int.ofNat_eq_natCast, hi]
  | negSucc n =>
    have ht : (Int.negSucc n).repr.toList = '-' :: Nat.toDigits 10 (n + 1) := by
      simp [Int.repr]
    have hn : -((n + 1 : Nat) : Int) = Int.negSucc n := rfl
    rw [numeral?_of_minus ht, decimal?_toDigits, Option.bind_some, hn, hi]

end ExprLang
