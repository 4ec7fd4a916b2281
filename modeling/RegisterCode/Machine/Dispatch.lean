import RegisterCode.Machine.Procedure

/-!
The effect of each instruction. Operands are read in order, and reading one may
take a value off the frame; the place moves on only when all else succeeded.
-/

namespace RegisterCode

/-- What a run works with and does not change. -/
structure Setting where
  limits : Limits
  program : Program
  procedures : Array Procedure

namespace Machine

/-- The operand in a slot of the instruction. -/
def operand (i : Instruction) (slot : Nat) : Action Operand :=
  need .unreadableOperand (i.operand? slot)

/-- The value of an operand. -/
def load (s : Setting) (x : Operand) : Action Value :=
  match x.mode with
  | .immediate => return .int x.value.toInt32
  | .constant =>
    if x.value < 0 then throw .unknownConstant
    else need .unknownConstant s.program.constants[x.value.toNatClampNeg]?
  | .register => do read (← slot x.value)
  | .stack => pop
  | .object =>
    if x.value < 0 then throw .negativeReference
    else return .object (UInt32.ofNat x.value.toNatClampNeg)

/-- Writes to a register of the frame, which from then on is in use. -/
def assign (x : Operand) (v : Value) : Action Unit := do
  require (x.mode = .register) .badDestination
  let index ← slot x.value
  write index v
  modify fun m => { m with top := max m.top (index + 1) }

/-- An operand that has to be a natural number. -/
def count (s : Setting) (x : Operand) : Action Nat := do
  match ← load s x with
  | .int n => if n < 0 then throw .badCount else return n.toNatClampNeg
  | _ => throw .badCount

/-- The target of a jump, which stands in the instruction itself. -/
def jumpTarget (s : Setting) (x : Operand) : Action Nat := do
  require (x.mode = .immediate) .indirectJump
  count s x

/-- Replaces the two values on top of the frame by the result of an operator. -/
def binary (op : BinaryOp) : Action Unit := do
  let right ← pop
  let left ← pop
  let result := op.apply left right
  match result with
  | .dud =>
    if op.divides && left.sameKind right && right.isZero then throw .zeroDivisor
    else throw .badOperands
  | .bool b =>
    modify fun m => { m with flag := b }
    push result
  | _ => push result

/-- Opens a frame whose lowest registers are the topmost `argc` of the caller. -/
def call (s : Setting) (func argc : Nat) : Action Unit := do
  require (func < s.program.chunks.size) .unknownFunction
  let m ← get
  require (m.frames.size < s.limits.depth) .callDepthLimit
  require (argc ≤ m.top - m.base) .missingArguments
  saveSpecials s.limits
  modify fun m => { m with
    frames := m.frames.push ⟨m.func, m.place + 1, m.base, m.top⟩
    base := m.top - argc
    func := func
    place := 0 }

/-- Leaves the result in the lowest register of the frame, which was the
caller's first argument, and goes back to the caller. -/
def ret (v : Value) : Action Unit := do
  write (← get).base v
  let frame ← need .noCaller (← get).frames.back?
  modify fun m => { m with
    frames := m.frames.pop
    func := frame.func
    place := frame.place
    base := frame.base
    top := frame.top }
  restoreSpecials

/-- The procedure that an instruction calls, and the count of arguments. -/
def requested (s : Setting) (i : Instruction) : Action (Procedure × UInt16) := do
  let id ← count s (← operand i 0)
  let argc ← count s (← operand i 1)
  let procedure ← need .unknownProcedure s.procedures[id]?
  require (argc < UInt16.size) .tooManyArguments
  return (procedure, UInt16.ofNat argc)

def goTo (place : Nat) : Action Unit :=
  modify fun m => { m with place := place }

/-- Moves on to the next instruction. -/
def advance : Action Unit :=
  modify fun m => { m with place := m.place + 1 }

/-- A jump that is taken when the condition has the given truth value. -/
def jumpWhen (s : Setting) (i : Instruction) (taken : Bool) : Action Unit := do
  let v ← load s (← operand i 0)
  let cond ← need .undecidedCondition v.truthy?
  let target ← jumpTarget s (← operand i 1)
  modify fun m => { m with flag := cond }
  if cond = taken then goTo target else advance

/-- Executes one instruction. -/
def dispatch (s : Setting) (i : Instruction) : Action Unit := do
  match i.op with
  | .nop => advance
  | .mov =>
    let dest ← operand i 0
    let v ← load s (← operand i 1)
    assign dest v
    advance
  | .push =>
    push (← load s (← operand i 0))
    advance
  | .neg =>
    let dest ← operand i 0
    require (dest.mode = .register) .badDestination
    let v := (← load s dest).neg
    require (!v.isDud) .badOperands
    assign dest v
    advance
  | .binary op =>
    binary op
    advance
  | .jump => goTo (← jumpTarget s (← operand i 0))
  | .jumpIf => jumpWhen s i true
  | .jumpElse => jumpWhen s i false
  | .call =>
    let func ← count s (← operand i 0)
    let argc ← count s (← operand i 1)
    call s func argc
  | .nativeCall =>
    let (procedure, argc) ← requested s i
    procedure.run argc
    advance
  | .ret => ret (← load s (← operand i 0))
  | .halt => modify fun m => { m with halted := true }

end Machine

end RegisterCode
