import RegisterCode.Decimal.Reader

/-!
Reading whole numbers from text: an optional sign and at least one ASCII digit,
nothing else, and a result within the range asked for.
-/

namespace RegisterCode.Text

/-- The number that a text consisting of digits alone denotes. -/
def readDigits? (cs : List Char) : Option Nat :=
  if !cs.isEmpty && cs.all Char.isDigit then some (Decimal.numberOfDigits cs) else none

/-- The whole number that a text denotes. -/
def readWhole? (text : String) : Option Int :=
  let (negative, rest) := Decimal.splitSign text.toList
  (readDigits? rest).map fun n => if negative then -(n : Int) else n

/-- The signed 32-bit number that a text denotes. -/
def readInt32? (text : String) : Option Int32 :=
  (readWhole? text).bind fun n =>
    if Int32.minValue.toInt ≤ n ∧ n ≤ Int32.maxValue.toInt then some (Int32.ofInt n) else none

/-- The natural number below `2 ^ 64` that a text denotes. Here only a plus
sign may stand in front. -/
def readWord? (text : String) : Option Nat :=
  let digits := match text.toList with
    | '+' :: rest => rest
    | cs => cs
  (readDigits? digits).filter (· < UInt64.size)

/-- A number written with at least `width` digits, zeros in front. -/
def zeroPadded (width n : Nat) : String :=
  let digits := toString n
  "".pushn '0' (width - digits.length) ++ digits

/-- A text filled up to `width` characters with blanks behind it. -/
def leftAligned (width : Nat) (text : String) : String :=
  text ++ "".pushn ' ' (width - text.length)

end RegisterCode.Text
