/-!
The binary floating-point value nearest to a fraction: fifty-three significant
bits, halves to the even neighbour, gradual underflow below and infinity above.
-/

namespace RegisterCode.Decimal

/-- A quotient of natural numbers rounded to a whole one, halves to even. -/
def roundedQuotient (num den : Nat) : Nat :=
  let whole := num / den
  let twice := 2 * (num % den)
  if twice < den ∨ (twice = den ∧ whole % 2 = 0) then whole else whole + 1

/-- The power of two below a positive fraction: `2 ^ e ≤ num / den < 2 ^ (e + 1)`. -/
def binaryExponent (num den : Nat) : Int :=
  let guess : Int := (num.log2 : Int) - den.log2
  -- The guess is right or one too large.
  let reached :=
    if 0 ≤ guess then den * Nat.pow 2 guess.toNat ≤ num
    else den ≤ num * Nat.pow 2 (-guess).toNat
  if reached then guess else guess - 1

/-- How many patterns share an exponent: the fraction has fifty-two bits. -/
def binade : Nat := 0x10000000000000

/-- The pattern of positive infinity, which every larger value overflows to. -/
def infinityPattern : Nat := 0x7ff * binade

/-- The bit pattern of the value nearest to `num / den`. A step of the chosen
binade is `2 ^ step`, and a mantissa that rounds up to the next power of two
carries into the exponent field by itself. -/
def nearestPattern (num den : Nat) : Nat :=
  if num = 0 then 0
  else
    let step := max (binaryExponent num den - 52) (-1074)
    let mantissa :=
      if 0 ≤ step then roundedQuotient num (den * Nat.pow 2 step.toNat)
      else roundedQuotient (num * Nat.pow 2 (-step).toNat) den
    min ((step + 1074).toNat * binade + mantissa) infinityPattern

/-- The bit pattern nearest to `digits * 10 ^ exponent`. Exponents far outside
the range of the format are settled without computing the power. -/
def nearestPatternOfDecimal (digits : Nat) (exponent : Int) : Nat :=
  let point := exponent + (toString digits).length
  if digits = 0 then 0
  else if 400 < point then infinityPattern
  else if point < -400 then 0
  else if 0 ≤ exponent then nearestPattern (digits * Nat.pow 10 exponent.toNat) 1
  else nearestPattern digits (Nat.pow 10 (-exponent).toNat)

end RegisterCode.Decimal
