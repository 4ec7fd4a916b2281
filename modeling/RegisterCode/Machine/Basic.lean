import RegisterCode.Code.Program
import RegisterCode.Status
import RegisterCode.Store.Basic
import RegisterCode.Text.Blank

/-!
The state of the machine and the ways an action on it can fail. All frames
share one file of registers. A frame's registers start at `base`, and `top` is
one past the highest register in use, which is where values are pushed.
-/

namespace RegisterCode

/-- What went wrong. Each cause belongs to a status, which is what a run
reports. -/
inductive Fault where
  /-- There is no instruction at the place reached. -/
  | endOfCode
  /-- The instruction lacks an operand, or its mode is unreadable. -/
  | unreadableOperand
  /-- A constant outside the pool. -/
  | unknownConstant
  /-- A register below the base of the frame. -/
  | negativeRegister
  /-- A register beyond the register file. -/
  | registerLimit
  /-- A value was to be taken from a frame that holds none. -/
  | emptyFrame
  /-- A reference with a negative number. -/
  | negativeReference
  /-- A destination that is not a register. -/
  | badDestination
  /-- Operands of kinds the operator does not accept. -/
  | badOperands
  | zeroDivisor
  /-- A condition on a value that decides none. -/
  | undecidedCondition
  /-- A jump whose target is not in the instruction itself. -/
  | indirectJump
  /-- A number or count that is not a natural number. -/
  | badCount
  | unknownFunction
  | callDepthLimit
  /-- More arguments than the frame holds values. -/
  | missingArguments
  | operandStackLimit
  /-- A return without a frame to return to. -/
  | noCaller
  | unknownProcedure
  /-- More arguments than a procedure can be told of. -/
  | tooManyArguments
  /-- A procedure asks for an argument beyond its count. -/
  | noSuchArgument
  /-- A procedure without arguments has no register to answer in. -/
  | noResultRegister
  /-- A procedure needs a reference and was given another kind of value. -/
  | notAReference
  /-- A reference to a slot without an object. -/
  | deadReference
  | storeFull
  /-- A change of a frozen sequence, or an item asked of an empty one. -/
  | unchangeable
  | indexOutOfRange
  | badIndex
  /-- A length that a value cannot hold. -/
  | lengthLimit
  /-- A line of input that is not text. -/
  | unreadableInput
  /-- A status that a procedure of the host chose to end with. -/
  | raised (status : Status)
deriving DecidableEq, Repr

def Fault.status : Fault → Status
  | unreadableOperand => .opError
  | badDestination | badOperands | undecidedCondition | indirectJump | badCount
  | unknownFunction | unknownProcedure | tooManyArguments | noSuchArgument
  | notAReference | unchangeable | badIndex => .argError
  | endOfCode | unknownConstant | negativeRegister | registerLimit | emptyFrame
  | negativeReference | callDepthLimit | missingArguments | operandStackLimit | noCaller
  | noResultRegister | deadReference | storeFull | indexOutOfRange | lengthLimit => .memError
  | zeroDivisor => .mathError
  | unreadableInput => .anyError
  | raised status => status

/-- The bounds of a run. -/
structure Limits where
  /-- Registers in the file that all frames share. -/
  registers : Nat
  /-- Values the operand stack may hold. -/
  operands : Nat
  /-- Frames that may be open when a function is called. -/
  depth : Nat
  /-- Instructions that may be executed, if that is bounded. -/
  steps : Option Nat
deriving DecidableEq, Repr

def Limits.standard : Limits := ⟨4096, 256, 256, none⟩

/-- How many steps a run is followed for: one more than its limit, which is
when the limit is noticed, or all that a word of 64 bits can count. -/
def Limits.horizon (limits : Limits) : Nat := limits.steps.getD UInt64.size + 1

/-- What a call keeps of its caller. -/
structure Frame where
  func : Nat
  /-- Where the caller goes on. -/
  place : Nat
  base : Nat
  top : Nat
deriving DecidableEq, Repr, Inhabited

/-- The state of a run, with the input still to be read and the output written. -/
structure Machine where
  registers : Array Value
  /-- Statuses and flags of the callers, two values to a frame. -/
  operands : Array Value
  frames : Array Frame
  store : Store
  func : Nat
  place : Nat
  base : Nat
  top : Nat
  status : Status
  /-- The outcome of the last comparison or condition. -/
  flag : Bool
  halted : Bool
  /-- How many instructions were started. -/
  steps : Nat
  input : List UInt8
  output : String
deriving Repr, Inhabited

namespace Machine

/-- A machine that has not begun: every register is dud. -/
def initial (limits : Limits) (input : List UInt8) : Machine where
  registers := Array.replicate limits.registers .dud
  operands := #[]
  frames := #[]
  store := .empty
  func := 0
  place := 0
  base := 0
  top := 0
  status := .ok
  flag := false
  halted := false
  steps := 0
  input := input
  output := ""

/-- The content of a register, counted from the start of the file. -/
def register? (m : Machine) (index : Nat) : Option Value := m.registers[index]?

def depth (m : Machine) : Nat := m.frames.size

def isRunning (m : Machine) : Bool :=
  !m.halted && !m.frames.isEmpty && m.status.isOk

end Machine

/-- A change of the machine that can fail. What it did before it failed stays. -/
abbrev Action := EStateM Fault Machine

namespace Machine

/-- Fails with the given fault unless there is a value. -/
def need {α : Type} (fault : Fault) : Option α → Action α
  | some a => pure a
  | none => throw fault

/-- Fails with the given fault unless the condition holds. -/
def require (condition : Bool) (fault : Fault) : Action Unit :=
  if condition then pure () else throw fault

/-- Reads a register of the file. -/
def read (index : Nat) : Action Value := do
  need .registerLimit (← get).registers[index]?

/-- Writes a register of the file. -/
def write (index : Nat) (v : Value) : Action Unit := fun m =>
  if h : index < m.registers.size then
    .ok () { m with registers := m.registers.set index v }
  else .error .registerLimit m

/-- Puts a value on top of the frame. -/
def push (v : Value) : Action Unit := do
  let top := (← get).top
  write top v
  modify fun m => { m with top := top + 1 }

/-- Takes the value on top of the frame. -/
def pop : Action Value := fun m =>
  if m.base < m.top then
    let top := m.top - 1
    (need .registerLimit m.registers[top]?) { m with top := top }
  else .error .emptyFrame m

/-- The register of the file that a register of the frame is. -/
def slot (offset : Int16) : Action Nat := do
  if offset < 0 then throw .negativeRegister
  else return (← get).base + offset.toNatClampNeg

/-- Saves the status and the flag of the caller. -/
def saveSpecials (limits : Limits) : Action Unit := fun m =>
  if limits.operands < m.operands.size + 2 then .error .operandStackLimit m
  else
    .ok () { m with operands := (m.operands.push (.int m.status.code)).push (.bool m.flag) }

/-- Gives the status and the flag of the caller back. -/
def restoreSpecials : Action Unit := do
  let flag ← need .noCaller (← get).operands.back?
  modify fun m => { m with operands := m.operands.pop }
  let status ← need .noCaller (← get).operands.back?
  modify fun m => { m with
    operands := m.operands.pop
    flag := (flag.truthy?).getD false
    status :=
      match status with
      | .int code => (Status.ofCode? code).getD .anyError
      | _ => .anyError }

/-- Takes the next line of the input. A line that is not text is taken but
fails; at the end of the input the line is empty. -/
def readLine : Action String := fun m =>
  let line := m.input.takeWhile (· ≠ 10)
  let m := { m with input := m.input.drop (line.length + 1) }
  match String.fromUTF8? ⟨line.toArray⟩ with
  | some text => .ok text m
  | none => .error .unreadableInput m

/-- Writes a line to the output. -/
def writeLine (line : String) : Action Unit :=
  modify fun m => { m with output := m.output ++ line ++ "\n" }

end Machine

end RegisterCode
