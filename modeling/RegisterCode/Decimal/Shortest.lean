/-!
The shortest decimal of a binary floating-point value: among the decimals that
round to the value, one with the fewest digits, and among those the nearest.

A positive value is `mantissa * 2 ^ exponent`. The reals that round to it form
an interval around it, whose ends belong to it when the mantissa is even. For
each digit count in turn the two neighbours of the value on the decimal grid of
that many digits are tested against the interval; if any point of the grid lies
in the interval then so does one of these two.
-/

namespace RegisterCode.Decimal

/-- The number `digits * 10 ^ exponent`. -/
structure Scientific where
  digits : Nat
  exponent : Int
deriving DecidableEq, Repr

/-- A positive binary value `mantissa * 2 ^ exponent`. `narrowBelow` says that
the next smaller value is only half as far away as the next larger one. -/
structure Dyadic where
  mantissa : Nat
  exponent : Int
  narrowBelow : Bool
deriving Repr

/-- A value and the two ends of the interval that rounds to it, as numerators
over one denominator. -/
structure Interval where
  low : Nat
  value : Nat
  high : Nat
  denominator : Nat
  endsBelong : Bool
deriving Repr

/-- The numerators and the denominator after division by `10 ^ e`. -/
def Interval.inUnits (i : Interval) (e : Int) : Interval :=
  if 0 ≤ e then
    { i with denominator := i.denominator * Nat.pow 10 e.toNat }
  else
    let scale := Nat.pow 10 (-e).toNat
    { i with low := i.low * scale, value := i.value * scale, high := i.high * scale }

/-- Whether the whole number `n` rounds to the value. -/
def Interval.admits (i : Interval) (n : Nat) : Bool :=
  let point := n * i.denominator
  if i.endsBelong then i.low ≤ point && point ≤ i.high
  else i.low < point && point < i.high

/-- The whole number next to the value that rounds to it, the nearer one if
both do, and the upper one on a tie. -/
def Interval.nearestWhole? (i : Interval) : Option Nat :=
  let below := i.value / i.denominator
  let above := below + 1
  match i.admits below, i.admits above with
  | false, false => none
  | true, false => some below
  | false, true => some above
  | true, true =>
    let past := i.value - below * i.denominator
    if 2 * past < i.denominator then some below else some above

/-- The number `digits * 10 ^ exponent` without trailing zeros among its digits. -/
def Scientific.trimmed (digits : Nat) (exponent : Int) : Scientific :=
  if digits ≠ 0 ∧ digits % 10 = 0 then trimmed (digits / 10) (exponent + 1)
  else ⟨digits, exponent⟩
termination_by digits
decreasing_by omega

namespace Dyadic

/-- The values that round to `x`: half a step up, and half a step or a quarter
of one down. All are counted in quarters of the step `2 ^ exponent`. -/
def interval (x : Dyadic) : Interval :=
  let quarter := x.exponent - 2
  let scale := if 0 ≤ quarter then Nat.pow 2 quarter.toNat else 1
  { low := (4 * x.mantissa - if x.narrowBelow then 1 else 2) * scale
    value := 4 * x.mantissa * scale
    high := (4 * x.mantissa + 2) * scale
    denominator := if 0 ≤ quarter then 1 else Nat.pow 2 (-quarter).toNat
    endsBelong := x.mantissa % 2 = 0 }

/-- Where the decimal point stands: the `k` with `10 ^ (k - 1) ≤ x < 10 ^ k`.
The logarithm of two, to five places, gives `k` or `k - 1`. -/
def pointPosition (x : Dyadic) : Int :=
  let guess := (x.exponent + x.mantissa.log2) * 30103 / 100000 + 1
  let i := x.interval.inUnits guess
  if i.value < i.denominator then guess else guess + 1

/-- Tries `digits`, `digits + 1`, … digits, `fuel` counts in all. Seventeen
digits tell any two values apart, so the last resort is never needed. -/
def shortestFrom (x : Dyadic) (point : Int) (digits : Nat) : Nat → Scientific
  | 0 => ⟨x.mantissa, x.exponent⟩
  | fuel + 1 =>
    let e := point - digits
    match (x.interval.inUnits e).nearestWhole? with
    | some n => .trimmed n e
    | none => shortestFrom x point (digits + 1) fuel

def shortest (x : Dyadic) : Scientific :=
  x.shortestFrom x.pointPosition 1 17

end Dyadic

end RegisterCode.Decimal
