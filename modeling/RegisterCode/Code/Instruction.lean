import RegisterCode.Value

/-!
Instructions: an opcode, three operand slots, and a word that packs how many
slots count and where each of them looks for its value.
-/

namespace RegisterCode

inductive Opcode where
  | nop
  | mov
  | push
  | neg
  | binary (op : BinaryOp)
  | jump
  | jumpIf
  | jumpElse
  | call
  | nativeCall
  | ret
  | halt
deriving DecidableEq, Repr

namespace Opcode

/-- All opcodes in the order of their numbers. -/
def all : List Opcode :=
  [nop, mov, push, neg] ++ BinaryOp.all.map binary ++
    [jump, jumpIf, jumpElse, call, nativeCall, ret, halt]

theorem mem_all (op : Opcode) : op ∈ all := by
  rcases op with _ | _ | _ | _ | op | _ | _ | _ | _ | _ | _ | _
  case binary => cases op <;> decide
  all_goals decide

/-- The number of an opcode in an image. -/
def index (op : Opcode) : Nat := all.idxOf op

def ofIndex? (n : Nat) : Option Opcode := all[n]?

theorem ofIndex?_index (op : Opcode) : ofIndex? op.index = some op := by
  rcases op with _ | _ | _ | _ | op | _ | _ | _ | _ | _ | _ | _
  case binary => cases op <;> decide
  all_goals decide

def mnemonic : Opcode → String
  | nop => "nop"
  | mov => "mov"
  | push => "push"
  | neg => "neg"
  | binary op => op.name
  | jump => "jump"
  | jumpIf => "jump_if"
  | jumpElse => "jump_else"
  | call => "call"
  | nativeCall => "native_call"
  | ret => "ret"
  | halt => "halt"

/-- How many slots the opcode itself adds above the top of the frame. -/
def stackDelta : Opcode → Int
  | push => 1
  | binary _ => -1
  | _ => 0

end Opcode

/-- Where an operand's value lives. -/
inductive Mode where
  /-- In the operand itself. -/
  | immediate
  /-- In the constant pool. -/
  | constant
  /-- In a register counted from the base of the frame. -/
  | register
  /-- In the topmost register of the frame, which reading frees. -/
  | stack
  /-- The operand names a slot of the object store. -/
  | object
deriving DecidableEq, Repr

namespace Mode

def all : List Mode := [immediate, constant, register, stack, object]

/-- The number of a mode in an instruction's metadata. -/
def code : Mode → UInt16
  | immediate => 0
  | constant => 1
  | register => 2
  | stack => 3
  | object => 4

def ofCode? (code : UInt16) : Option Mode :=
  all.find? fun mode => mode.code = code

theorem ofCode?_code (mode : Mode) : ofCode? mode.code = some mode := by
  cases mode <;> decide

end Mode

structure Operand where
  mode : Mode
  value : Int16
deriving DecidableEq, Repr

namespace Operand

def immediate (value : Int16) : Operand := ⟨.immediate, value⟩

def constant (value : Int16) : Operand := ⟨.constant, value⟩

def register (value : Int16) : Operand := ⟨.register, value⟩

def stack : Operand := ⟨.stack, 0⟩

def object (value : Int16) : Operand := ⟨.object, value⟩

def text (x : Operand) : String :=
  match x.mode with
  | .immediate => s!"#{x.value}"
  | .constant => s!"c{x.value}"
  | .register => s!"r{x.value}"
  | .stack => "pop"
  | .object => s!"h{x.value}"

end Operand

/-- The three operand slots of an instruction. -/
structure Slots where
  first : Int16
  second : Int16
  third : Int16
deriving DecidableEq, Repr, Inhabited

namespace Slots

def toList (s : Slots) : List Int16 := [s.first, s.second, s.third]

/-- The content of a slot; there are only three. -/
def get (s : Slots) : Nat → Int16
  | 0 => s.first
  | 1 => s.second
  | 2 => s.third
  | _ => 0

def set (s : Slots) (value : Int16) : Nat → Slots
  | 0 => { s with first := value }
  | 1 => { s with second := value }
  | 2 => { s with third := value }
  | _ => s

end Slots

/-- An instruction. The two lowest bits of `metadata` are the arity, and from
the third bit on each slot has three bits for its mode. -/
structure Instruction where
  op : Opcode
  args : Slots
  metadata : UInt16
deriving DecidableEq, Repr

namespace Instruction

/-- Where the mode of a slot starts in the metadata. -/
def modeShift (slot : Nat) : UInt16 := UInt16.ofNat (2 + 3 * slot)

/-- The instruction with the given operands, of which at most three count. -/
def make (op : Opcode) (operands : List Operand) : Instruction :=
  let used := operands.take 3
  let args := used.zipIdx.foldl (fun args (x, slot) => args.set x.value slot) ⟨0, 0, 0⟩
  let modes := used.zipIdx.foldl (fun word (x, slot) => word ||| x.mode.code <<< modeShift slot) 0
  ⟨op, args, modes ||| UInt16.ofNat used.length⟩

def nonary (op : Opcode) : Instruction := make op []

def unary (op : Opcode) (x : Operand) : Instruction := make op [x]

def binary (op : Opcode) (x y : Operand) : Instruction := make op [x, y]

/-- How many slots count. -/
def arity (i : Instruction) : Nat := (i.metadata &&& 3).toNat

/-- The mode of a slot that counts, unless its bits stand for none. -/
def mode? (i : Instruction) (slot : Nat) : Option Mode :=
  if slot < i.arity then Mode.ofCode? (i.metadata >>> modeShift slot &&& 7) else none

def operand? (i : Instruction) (slot : Nat) : Option Operand :=
  (i.mode? slot).map fun mode => ⟨mode, i.args.get slot⟩

/-- How the instruction moves the top of the frame: what its opcode adds, less
one for each operand it takes from the stack. -/
def stackDelta (i : Instruction) : Int :=
  i.op.stackDelta - ((List.range i.arity).countP fun slot => i.mode? slot = some .stack)

/-- An operand, or the bare content of a slot whose mode is unreadable. -/
def slotText (i : Instruction) (slot : Nat) : String :=
  match i.operand? slot with
  | some x => x.text
  | none => s!"?{i.args.get slot}"

def text (i : Instruction) : String :=
  let operands := (List.range i.arity).map i.slotText
  if operands.isEmpty then i.op.mnemonic
  else i.op.mnemonic ++ " " ++ ", ".intercalate operands

end Instruction

end RegisterCode
