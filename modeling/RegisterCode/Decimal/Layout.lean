import RegisterCode.Decimal.Shortest

/-!
How a decimal is laid out as text: when the point is placed among the digits
and when a power of ten is written instead.
-/

namespace RegisterCode.Decimal

/-- The choices of one number format. -/
structure Layout where
  /-- The point is placed among the digits from this position of it … -/
  positionalFrom : Int
  /-- … up to this one. -/
  positionalTo : Int
  /-- What follows a positional number without a fraction. -/
  wholeEnding : String
  /-- What stands before the power of ten. -/
  exponentMark : String
  infinity : String
  notANumber : String
deriving Repr

/-- Digits with the point after the first `point` of them, zeros being added on
either side where the point lies outside the digits. -/
def Layout.positional (layout : Layout) (digits : String) (point : Int) : String :=
  let count := digits.length
  if point ≤ 0 then
    "0." ++ "".pushn '0' (-point).toNat ++ digits
  else if point.toNat < count then
    (digits.take point.toNat).toString ++ "." ++ (digits.drop point.toNat).toString
  else
    digits ++ "".pushn '0' (point.toNat - count) ++ layout.wholeEnding

/-- One digit, the rest of them after a point, and the power of ten. -/
def Layout.scientific (layout : Layout) (digits : String) (point : Int) : String :=
  let rest := (digits.drop 1).toString
  let fraction := if rest.isEmpty then "" else "." ++ rest
  (digits.take 1).toString ++ fraction ++ layout.exponentMark ++ toString (point - 1)

def Layout.write (layout : Layout) (s : Scientific) : String :=
  let digits := toString s.digits
  let point := s.exponent + digits.length
  if layout.positionalFrom ≤ point ∧ point ≤ layout.positionalTo then
    layout.positional digits point
  else
    layout.scientific digits point

end RegisterCode.Decimal
