import RegisterCode.Value

/-!
Division and remainder. On whole numbers they are the truncated ones, cut down to 32 bits like all
arithmetic, and the two fit together even where the quotient itself does not fit (`division_law`).
A zero divisor is refused, which for floating-point numbers is one of two bit patterns
(`apply_of_dividesByZero`).
-/

namespace RegisterCode

/-! ### Whole numbers -/

namespace Value

variable {a b : Int32}

theorem div_of_ne_zero (nonzero : b ≠ 0) : (int a).div (int b) = int (a / b) := if_neg nonzero

theorem rem_of_ne_zero (nonzero : b ≠ 0) : (int a).rem (int b) = int (a % b) := if_neg nonzero

/-- Quotient times divisor, plus remainder, is the dividend. Where the quotient was cut down, the
product is cut down by as much. -/
theorem quotient_mul_add_remainder (a b : Int32) : a / b * b + a % b = a := by
  apply Int32.toInt_inj.1
  calc (a / b * b + a % b).toInt
      = ((a.toInt.tdiv b.toInt).bmod (2 ^ 32) * b.toInt + a.toInt.tmod b.toInt).bmod (2 ^ 32) := by
        rw [Int32.toInt_add, Int32.toInt_mul, Int32.toInt_div, Int32.toInt_mod, Int.bmod_add_bmod]
    _ = (a.toInt.tdiv b.toInt * b.toInt + a.toInt.tmod b.toInt).bmod (2 ^ 32) := by
        rw [← Int.bmod_add_bmod, Int.bmod_mul_bmod, Int.bmod_add_bmod]
    _ = a.toInt.bmod (2 ^ 32) := by rw [Int.tdiv_mul_add_tmod]
    _ = a.toInt := a.toInt_bmod_size

theorem natAbs_remainder_lt (nonzero : b ≠ 0) : (a % b).toInt.natAbs < b.toInt.natAbs := by
  have divisor : b.toInt ≠ 0 := fun zero => nonzero (Int32.toInt_inj.1 zero)
  rw [Int32.toInt_mod, Int.natAbs_tmod]
  exact Nat.mod_lt _ (Int.natAbs_pos.2 divisor)

/-- A remainder has the sign of the dividend, unless the division is exact. -/
theorem sign_remainder (a b : Int32) : a % b = 0 ∨ (a % b).toInt.sign = a.toInt.sign := by
  have sign : (a % b).toInt.sign = if b.toInt ∣ a.toInt then 0 else a.toInt.sign := by
    rw [Int32.toInt_mod, Int.sign_tmod]
  by_cases exact : b.toInt ∣ a.toInt
  · rw [if_pos exact] at sign
    exact .inl (Int32.toInt_inj.1 (Int.sign_eq_zero_iff_zero.1 sign))
  · rw [if_neg exact] at sign
    exact .inr sign

/-- Only the quotient of the least number by minus one does not fit. -/
theorem toInt_quotient (fits : ¬(a = Int32.minValue ∧ b = -1)) :
    (a / b).toInt = a.toInt.tdiv b.toInt := by
  by_cases least : a = Int32.minValue
  · exact Int32.toInt_div_of_ne_right a b fun one => fits ⟨least, one⟩
  · exact Int32.toInt_div_of_ne_left a b least

/-- Division of whole numbers by a number other than zero gives whole numbers. They fit together,
the remainder is smaller than the divisor and has the sign of the dividend unless it is zero, and
the quotient is the exact one cut off toward zero. There is one division whose quotient does not
fit; it gives back the least number, without a remainder. -/
theorem division_law (a b : Int32) (nonzero : b ≠ 0) :
    ∃ q r : Int32, (int a).div (int b) = int q ∧ (int a).rem (int b) = int r ∧
      ((int q).mul (int b)).add (int r) = int a ∧
      r.toInt.natAbs < b.toInt.natAbs ∧ (r = 0 ∨ r.toInt.sign = a.toInt.sign) ∧
      (¬(a = Int32.minValue ∧ b = -1) → q.toInt = a.toInt.tdiv b.toInt) ∧
      (a = Int32.minValue ∧ b = -1 → q = Int32.minValue ∧ r = 0) := by
  refine ⟨a / b, a % b, div_of_ne_zero nonzero, rem_of_ne_zero nonzero, ?_,
    natAbs_remainder_lt nonzero, sign_remainder a b, toInt_quotient, ?_⟩
  · exact congrArg int (quotient_mul_add_remainder a b)
  · rintro ⟨rfl, rfl⟩
    decide

/-- The division whose quotient does not fit. -/
theorem division_law_of_least :
    (-1 : Int32) ≠ 0 ∧ ∃ q r : Int32,
      (int Int32.minValue).div (int (-1)) = int q ∧ (int Int32.minValue).rem (int (-1)) = int r ∧
      ((int q).mul (int (-1))).add (int r) = int Int32.minValue ∧
      q = Int32.minValue ∧ r = 0 := by
  obtain ⟨q, r, quotient, remainder, law, -, -, -, least⟩ :=
    division_law Int32.minValue (-1) (by decide)
  exact ⟨by decide, q, r, quotient, remainder, law, least ⟨rfl, rfl⟩⟩

end Value

/-! ### Zero divisors -/

namespace Binary64

def zero : Binary64 := ⟨0⟩

def negativeZero : Binary64 := ⟨signBit⟩

/-- Zero has two bit patterns. -/
theorem isZero_iff {x : Binary64} : x.isZero = true ↔ x = zero ∨ x = negativeZero := by
  have rest : x.magnitude = x.bits.toNat % 2 ^ 63 := by
    rw [magnitude, UInt64.toNat_and, ← Nat.and_two_pow_sub_one_eq_mod]
    rfl
  have small : x.bits.toNat < 2 ^ 64 := x.bits.toNat_lt
  have same (bits : UInt64) : x = ⟨bits⟩ ↔ x.bits.toNat = bits.toNat := by
    rw [UInt64.toNat_inj]
    exact ⟨congrArg Binary64.bits, fun h => by rw [← h]⟩
  have sign : signBit.toNat = 2 ^ 63 := rfl
  rw [isZero, decide_eq_true_eq, rest, zero, negativeZero, same, same, UInt64.toNat_zero, sign]
  omega

end Binary64

/-- A division or a remainder by zero, of two whole or of two floating-point numbers. -/
def BinaryOp.DividesByZero (op : BinaryOp) (x y : Value) : Prop :=
  (op = .div ∨ op = .mod) ∧
    ((∃ a, x = .int a ∧ y = .int 0) ∨
      ∃ f, x = .float f ∧ (y = .float .zero ∨ y = .float .negativeZero))

namespace BinaryOp

variable {op : BinaryOp} {x y : Value}

theorem dividesByZero_iff :
    (op.divides && x.sameKind y && y.isZero) = true ↔ op.DividesByZero x y := by
  have divides : op.divides = true ↔ op = .div ∨ op = .mod := by cases op <;> decide
  have zero : (x.sameKind y && y.isZero) = true ↔ (∃ a, x = .int a ∧ y = .int 0) ∨
      ∃ f, x = .float f ∧ (y = .float .zero ∨ y = .float .negativeZero) := by
    cases x <;> cases y <;>
      simp [Value.sameKind, Value.kindName, Value.isZero, Binary64.isZero_iff]
  rw [Bool.and_assoc, Bool.and_eq_true, divides, zero, DividesByZero]

theorem apply_of_dividesByZero (h : op.DividesByZero x y) : op.apply x y = .dud := by
  obtain ⟨rfl | rfl, ⟨a, rfl, rfl⟩ | ⟨f, rfl, rfl | rfl⟩⟩ := h <;> rfl

end BinaryOp

end RegisterCode
