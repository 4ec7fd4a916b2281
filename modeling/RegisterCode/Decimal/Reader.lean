import RegisterCode.Binary64

/-!
Reading a floating-point number from text. A text is an optional sign followed
by a name of infinity or of not-a-number in any letter case, or by decimal
digits with an optional point and an optional power of ten. At least one digit
stands beside the point, and at least one after the mark of the power. There
are no blanks.
-/

namespace RegisterCode.Decimal

/-- The leading ASCII digits of a text, and the rest of it. -/
def spanDigits (cs : List Char) : List Char × List Char :=
  cs.span Char.isDigit

/-- The number that a row of digits denotes. -/
def numberOfDigits (ds : List Char) : Nat :=
  ds.foldl (fun n d => 10 * n + (d.toNat - '0'.toNat)) 0

/-- Whether a minus sign stands in front, and the text after the sign. -/
def splitSign : List Char → Bool × List Char
  | '-' :: rest => (true, rest)
  | '+' :: rest => (false, rest)
  | cs => (false, cs)

/-- The power of ten at the end of a number: nothing, or a mark, an optional
sign and digits. -/
def readPower? : List Char → Option Int
  | [] => some 0
  | mark :: rest =>
    if mark = 'e' ∨ mark = 'E' then
      let (negative, rest) := splitSign rest
      match spanDigits rest with
      | ([], _) => none
      | (ds, []) =>
        let n : Int := numberOfDigits ds
        some (if negative then -n else n)
      | (_, _ :: _) => none
    else none

/-- The digits after the point, if there is one, and the rest of the text. -/
def spanFraction : List Char → List Char × List Char
  | '.' :: rest => spanDigits rest
  | cs => ([], cs)

/-- An unsigned decimal number, as the bit pattern nearest to it. -/
def readUnsigned? (cs : List Char) : Option Nat :=
  let (whole, rest) := spanDigits cs
  let (fraction, rest) := spanFraction rest
  let digits := whole ++ fraction
  if digits.isEmpty then none
  else
    (readPower? rest).map fun power =>
      nearestPatternOfDecimal (numberOfDigits digits) (power - fraction.length)

/-- The pattern of the quiet not-a-number that a text stands for. -/
def notANumberPattern : Nat := infinityPattern + binade / 2

/-- The bit pattern, less the sign, that a text without sign denotes. -/
def readMagnitude? (cs : List Char) : Option Nat :=
  let name := String.ofList (cs.map Char.toLower)
  if name = "inf" ∨ name = "infinity" then some infinityPattern
  else if name = "nan" then some notANumberPattern
  else readUnsigned? cs

/-- The number that a text denotes. -/
def read? (text : String) : Option Binary64 :=
  let (negative, rest) := splitSign text.toList
  (readMagnitude? rest).map fun magnitude =>
    let x : Binary64 := ⟨UInt64.ofNat magnitude⟩
    if negative then x.neg else x

end RegisterCode.Decimal
