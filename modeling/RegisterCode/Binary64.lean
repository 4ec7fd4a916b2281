import RegisterCode.Decimal.Layout
import RegisterCode.Decimal.Rounding

/-!
Binary floating-point numbers of sixty-four bits, kept as their bit patterns so
that every pattern, also each kind of not-a-number, is a value of its own.
-/

namespace RegisterCode

/-- A floating-point number given by its bits. -/
structure Binary64 where
  bits : UInt64
deriving DecidableEq, Repr, Inhabited

namespace Binary64

def toFloat (x : Binary64) : Float := Float.ofBits x.bits

def ofFloat (x : Float) : Binary64 := ⟨x.toBits⟩

def signBit : UInt64 := 0x8000000000000000

def isNegative (x : Binary64) : Bool := x.bits &&& signBit ≠ 0

/-- The pattern without its sign. -/
def magnitude (x : Binary64) : Nat := (x.bits &&& ~~~signBit).toNat

/-- Zero of either sign. -/
def isZero (x : Binary64) : Bool := x.magnitude = 0

def isNaN (x : Binary64) : Bool := Decimal.infinityPattern < x.magnitude

def add (x y : Binary64) : Binary64 := ofFloat (x.toFloat + y.toFloat)

def sub (x y : Binary64) : Binary64 := ofFloat (x.toFloat - y.toFloat)

def mul (x y : Binary64) : Binary64 := ofFloat (x.toFloat * y.toFloat)

def div (x y : Binary64) : Binary64 := ofFloat (x.toFloat / y.toFloat)

def neg (x : Binary64) : Binary64 := ⟨x.bits ^^^ signBit⟩

/-- Numeric equality: the zeros are equal, and not-a-number equals nothing. -/
def eq (x y : Binary64) : Bool := x.toFloat == y.toFloat

def lt (x y : Binary64) : Bool := x.toFloat < y.toFloat

def le (x y : Binary64) : Bool := x.toFloat ≤ y.toFloat

/-- The positive finite value that a nonzero pattern below infinity stands for. -/
def dyadic (magnitude : Nat) : Decimal.Dyadic :=
  let field : Nat := magnitude / Decimal.binade
  let fraction : Nat := magnitude % Decimal.binade
  if field = 0 then ⟨fraction, -1074, false⟩
  else ⟨fraction + Decimal.binade, (field : Int) - 1075, fraction = 0 ∧ 1 < field⟩

/-- Shortest digits; positional from `0.0001` to below `10 ^ 16` and always with
a fraction there, else one leading digit and a power of ten after `e`. -/
def layout : Decimal.Layout where
  positionalFrom := -3
  positionalTo := 16
  wholeEnding := ".0"
  exponentMark := "e"
  infinity := "inf"
  notANumber := "NaN"

def text (x : Binary64) : String :=
  let m := x.magnitude
  if x.isNaN then layout.notANumber
  else
    let unsigned :=
      if m = Decimal.infinityPattern then layout.infinity
      else if m = 0 then "0" ++ layout.wholeEnding
      else layout.write (dyadic m).shortest
    if x.isNegative then "-" ++ unsigned else unsigned

end Binary64

end RegisterCode
