/-!
Decimal numerals of machine integers: how an integer is written, and which texts are read as one.
Reading accepts a sign and leading zeros, writing uses a sign for negative integers only.
-/

namespace LambdaInt.Numeral

/-- The number written by a non-empty list of ASCII digits. -/
def digits? (cs : List Char) : Option Nat :=
  if cs ≠ [] ∧ cs.all Char.isDigit then some (Nat.ofDigitChars 10 cs 0) else none

/-- An integer with an optional sign, of any size. -/
def signed? : List Char → Option Int
  | '-' :: cs => (digits? cs).map fun n => -(n : Int)
  | '+' :: cs => (digits? cs).map fun n => (n : Int)
  | cs => (digits? cs).map fun n => (n : Int)

/-- A signed integer of sixty-four bits; one that does not fit is no such integer. -/
def int64? (text : String) : Option Int64 := do
  let n ← signed? text.toList
  if Int64.minValue.toInt ≤ n ∧ n ≤ Int64.maxValue.toInt then some (Int64.ofInt n) else none

/-- A number below two to the power of sixty-four, which may have a plus sign but no minus sign. -/
def word64? (text : String) : Option Nat := do
  let n ← digits? (match text.toList with
    | '+' :: cs => cs
    | cs => cs)
  if n < UInt64.size then some n else none

def render (value : Int64) : String :=
  let n := value.toInt
  let digits := String.ofList (Nat.toDigits 10 n.natAbs)
  if n < 0 then "-" ++ digits else digits

end LambdaInt.Numeral
