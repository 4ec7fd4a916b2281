import RegisterCode.Proofs.Machine.Counting
import RegisterCode.Proofs.Machine.Instructions
import RegisterCode.Proofs.Value.Division

/-!
The operators as instructions. They take their operands off the top of the frame and put the result
there, and nothing else happens; if there is no result, the status says why: a zero divisor or
operands that do not go together, or that the frame does not hold two values. The main statement is
`operator_of_reachable`.
-/

namespace RegisterCode

namespace BinaryOp

variable {op : BinaryOp} {x y : Value}

theorem outcome_of_ne_dud (h : op.apply x y ≠ .dud) : op.outcome x y = .ok (op.apply x y) := by
  unfold outcome
  split
  next none => exact absurd none h
  next => rfl

theorem outcome_of_dividesByZero (h : op.DividesByZero x y) :
    op.outcome x y = .error .zeroDivisor := by
  unfold outcome
  rw [apply_of_dividesByZero h]
  exact if_pos (dividesByZero_iff.2 h)

theorem outcome_of_not_dividesByZero (none : op.apply x y = .dud) (h : ¬ op.DividesByZero x y) :
    op.outcome x y = .error .badOperands := by
  unfold outcome
  rw [none]
  exact if_neg (mt dividesByZero_iff.1 h)

end BinaryOp

namespace Machine

/-- The machine after it has started an instruction and done what can be done of it. -/
def executed (s : Setting) (i : Instruction) (m : Machine) : Machine :=
  (outcome (dispatch s i) m.started).settle.2

section

variable {s : Setting} {i : Instruction} {m n : Machine} {fault : Fault}

theorem executed_of_ok (h : dispatch s i m.started = .ok () n) : m.executed s i = n := by
  rw [executed, outcome, h, Outcome.settle]

theorem executed_of_error (h : dispatch s i m.started = .error fault n) :
    m.executed s i = { n with status := fault.status } := by
  rw [executed, outcome, h, Outcome.settle]

/-- A step executes the instruction that is next, if the limit allows. -/
theorem step_of_fetch (running : m.isRunning = true)
    (fetched : s.program.fetch? m.func m.place = some i) :
    (m.step s).2 = match m.reachedLimit? s.limits with
      | none => m.executed s i
      | some _ => { m with status := .anyError } := by
  rw [step]
  cases reached : m.reachedLimit? s.limits with
  | some limit => rw [attempt_of_reached running reached, Outcome.settle]
  | none =>
      rw [attempt_of_below running reached, work, fetched, executed]
      rfl

end

/-- What an operator makes of a machine whose frame has `x` and `y` on top. -/
structure Operated (op : BinaryOp) (x y : Value) (m z : Machine) : Prop where
  succeeds : z.status = .ok ↔ op.apply x y ≠ .dud
  /-- The result has taken the place of the operands. -/
  result : op.apply x y ≠ .dud → z = { m with
    registers := m.registers.setIfInBounds (m.top - 2) (op.apply x y)
    top := m.top - 1
    place := m.place + 1
    flag := match op.apply x y with
      | .bool b => b
      | _ => m.flag
    steps := m.steps + 1 }
  zeroDivisor : z.status = .mathError ↔ op.DividesByZero x y
  badOperands : z.status = .argError ↔ op.apply x y = .dud ∧ ¬ op.DividesByZero x y

section

variable {s : Setting} {i : Instruction} {op : BinaryOp} {m : Machine}

theorem dispatch_operator (is : i.op = .binary op) :
    dispatch s i = binary op >>= fun _ => advance := by
  simp only [dispatch, is]

/-- A frame that holds no two values has none or one to take. -/
theorem executed_of_few (seated : m.Seated) (is : i.op = .binary op) (few : m.top < m.base + 2) :
    (m.executed s i).status = .memError := by
  have fails : ∃ n, binary op m.started = .error .emptyFrame n := by
    by_cases some : m.base < m.top
    · obtain ⟨right, takes⟩ := pop_of_seated (m := m.started) ⟨seated.base_le, seated.top_le⟩ some
      have last : m.top - 1 ≤ m.base := by omega
      refine ⟨{ m.started with top := m.top - 1 }, ?_⟩
      rw [binary, bind_of_ok takes]
      exact bind_of_error (pop_of_le last)
    · refine ⟨m.started, ?_⟩
      rw [binary]
      exact bind_of_error (pop_of_le (Nat.not_lt.1 some))
  obtain ⟨n, fails⟩ := fails
  have error : dispatch s i m.started = .error .emptyFrame n := by
    rw [dispatch_operator is, bind_of_error fails]
  rw [executed_of_error error]
  rfl

theorem operated_of_room {x y : Value} (status : m.status = .ok) (is : i.op = .binary op)
    (room : m.base + 2 ≤ m.top) (left : m.register? (m.top - 2) = some x)
    (right : m.register? (m.top - 1) = some y) : Operated op x y m (m.executed s i) := by
  have applied := @binary_apply m.started op x y room left right
  by_cases dud : op.apply x y = .dud
  · -- Without a result the fault is one of two, and its status tells which.
    by_cases zero : op.DividesByZero x y
    · rw [BinaryOp.outcome_of_dividesByZero zero] at applied
      have error : (m.executed s i).status = .mathError := by
        rw [executed_of_error (by rw [dispatch_operator is, bind_of_error applied])]
        rfl
      refine ⟨?_, fun some => absurd dud some, ?_, ?_⟩ <;> rw [error] <;> simp [dud, zero]
    · rw [BinaryOp.outcome_of_not_dividesByZero dud zero] at applied
      have error : (m.executed s i).status = .argError := by
        rw [executed_of_error (by rw [dispatch_operator is, bind_of_error applied])]
        rfl
      refine ⟨?_, fun some => absurd dud some, ?_, ?_⟩ <;> rw [error] <;> simp [dud, zero]
  · rw [BinaryOp.outcome_of_ne_dud dud] at applied
    have zero : ¬ op.DividesByZero x y := fun zero => dud (BinaryOp.apply_of_dividesByZero zero)
    have done : m.executed s i = (m.started.combined (op.apply x y)).advanced :=
      executed_of_ok (by rw [dispatch_operator is, bind_of_ok applied, advance_apply])
    have fine : (m.executed s i).status = .ok := by
      rw [done]
      exact status
    refine ⟨?_, fun _ => done, ?_, ?_⟩ <;> rw [fine] <;> simp [dud, zero]

end

/-- Let a running machine that a host brought about execute an operator. If its frame holds fewer
than two values, the status is that of a place outside the storage. Otherwise the two values on top
are the operands: the instruction succeeds just when the operator has a result for them, and then
the result has taken their place and nothing else has changed but the flag, if the result is a truth
value; it fails as a division by zero just when it is one, and for the kinds of the operands in all
other cases. If the operator is the next instruction, this is what a step does, unless the limit on
steps is used up, which ends the run. -/
theorem operator_of_reachable (s : Setting) (confined : s.IsConfined) (m : Machine)
    (reachable : Reachable s m) (running : m.isRunning = true) (op : BinaryOp) (i : Instruction)
    (is : i.op = .binary op) :
    (m.top < m.base + 2 → (m.executed s i).status = .memError) ∧
    (m.base + 2 ≤ m.top → ∃ x y, m.register? (m.top - 2) = some x ∧
      m.register? (m.top - 1) = some y ∧ Operated op x y m (m.executed s i)) ∧
    (s.program.fetch? m.func m.place = some i →
      (m.step s).2 = match m.reachedLimit? s.limits with
        | none => m.executed s i
        | some _ => { m with status := .anyError }) := by
  obtain ⟨-, -, status⟩ := isRunning_iff.1 running
  have seated : m.Seated := by
    obtain ⟨input, moves, rfl⟩ := reachable
    exact (afterMoves_framed confined (.initial s.limits input) moves).seated
  refine ⟨executed_of_few seated is, fun room => ?_, step_of_fetch running⟩
  have top_le := seated.top_le
  have inside : m.top - 1 < m.registers.size := by omega
  have inside' : m.top - 2 < m.registers.size := by omega
  exact ⟨_, _, Array.getElem?_eq_getElem inside', Array.getElem?_eq_getElem inside,
    operated_of_room status is room (Array.getElem?_eq_getElem inside')
      (Array.getElem?_eq_getElem inside)⟩

/-- A program that asks for the remainder of one by negative zero. -/
def remainderByZero : Setting where
  limits := ⟨4, 4, 2, none⟩
  program := {
    chunks := #[
      #[.make .push [.constant 0], .make .push [.constant 1], .make (.binary .mod) []]]
    constants := #[.float ⟨0x3FF0000000000000⟩, .float .negativeZero]
    entry := some 0 }
  procedures := Procedure.standard

/-- Floating-point numbers have no remainder, but a zero divisor is reported all the same. -/
theorem operator_of_remainder :
    let s := remainderByZero
    let m := (initial s.limits []).afterMoves s [.begin, .step, .step]
    m.base + 2 ≤ m.top ∧ (m.step s).2.status = .mathError ∧
      ∃ x y, m.register? (m.top - 2) = some x ∧ m.register? (m.top - 1) = some y ∧
        Operated .mod x y m (m.step s).2 := by
  intro s m
  obtain ⟨-, holds, steps⟩ := operator_of_reachable s standard_isConfined m
    ⟨[], [.begin, .step, .step], rfl⟩ (by decide +kernel) .mod (.make (.binary .mod) []) rfl
  have room : m.base + 2 ≤ m.top := by decide +kernel
  have stepped : (m.step s).2 = m.executed s (.make (.binary .mod) []) := steps (by decide +kernel)
  refine ⟨room, by decide +kernel, ?_⟩
  rw [stepped]
  exact holds room

end Machine

end RegisterCode
