import RegisterCode.Value

/-!
The steps of a flow graph: three-address operations over symbolic addresses.
-/

namespace RegisterCode

/-- What a symbolic address names. -/
inductive Space where
  /-- The number itself, such as a function's or a count of arguments. -/
  | immediate
  /-- An entry of the constant pool. -/
  | constant
  /-- A temporary of the function at hand. -/
  | temp
  /-- A slot of the object store. -/
  | object
deriving DecidableEq, Repr

/-- Numbers below this fit the sixteen bits of an address, with its sign. -/
def numberRange : Nat := 32768

structure Address where
  space : Space
  id : Int16
deriving DecidableEq, Repr

namespace Address

def immediate (id : Int16) : Address := ⟨.immediate, id⟩

def constant (id : Int16) : Address := ⟨.constant, id⟩

def temp (id : Int16) : Address := ⟨.temp, id⟩

def object (id : Int16) : Address := ⟨.object, id⟩

def isTemp (a : Address) : Bool := a.space = .temp

def text (a : Address) : String :=
  let mark := match a.space with
    | .immediate => "#"
    | .constant => "c"
    | .temp => "t"
    | .object => "h"
  mark ++ toString a.id

end Address

/-- The operations of steps. The markers steer the emission of code and have no
instruction of their own. -/
inductive Op where
  | nop
  | neg
  | binary (op : BinaryOp)
  | jump
  | jumpIf
  | jumpElse
  | call
  | nativeCall
  | ret
  | halt
  /-- Remember the jump just emitted, to be given its target later. -/
  | savePatch
  /-- Exchange the two jumps remembered last. -/
  | shufflePatch
  /-- Give the conditional jump remembered last the place just emitted. -/
  | patchJumpElse
  /-- Give the jump remembered last the place just emitted. -/
  | patchJump
  /-- What is left of a step that was condensed away. -/
  | condensed
deriving DecidableEq, Repr

namespace Op

def all : List Op :=
  [nop, neg] ++ BinaryOp.all.map binary ++
    [jump, jumpIf, jumpElse, call, nativeCall, ret, halt,
      savePatch, shufflePatch, patchJumpElse, patchJump, condensed]

theorem mem_all (op : Op) : op ∈ all := by
  rcases op with _ | _ | op | _ | _ | _ | _ | _ | _ | _ | _ | _ | _ | _ | _
  case binary => cases op <;> decide
  all_goals decide

def name : Op → String
  | nop => "nop"
  | neg => "neg"
  | binary op => op.name
  | jump => "jump"
  | jumpIf => "jump_if"
  | jumpElse => "jump_else"
  | call => "call"
  | nativeCall => "native_call"
  | ret => "ret"
  | halt => "halt"
  | savePatch => "meta_save_patch"
  | shufflePatch => "meta_shuffle_patch"
  | patchJumpElse => "meta_patch_jmp_else"
  | patchJump => "meta_patch_jmp"
  | condensed => "meta_condensed"

def isBinary : Op → Bool
  | binary _ => true
  | _ => false

def isCall : Op → Bool
  | call | nativeCall => true
  | _ => false

end Op

/-- A step. Only `unary` and `binary` produce a value; the other three act on
none, one or two operands. -/
inductive Step where
  | unary (dest : Address) (op : Op) (arg : Address)
  | binary (dest : Address) (op : Op) (left right : Address)
  | act (op : Op)
  | actOn (op : Op) (arg : Address)
  | actOnTwo (op : Op) (first second : Address)
deriving DecidableEq, Repr

namespace Step

def op : Step → Op
  | unary _ op _ | binary _ op _ _ | act op | actOn op _ | actOnTwo op _ _ => op

def dest? : Step → Option Address
  | unary dest _ _ | binary dest _ _ _ => some dest
  | _ => none

/-- The operands a step reads, in order. -/
def args : Step → List Address
  | unary _ _ arg | actOn _ arg => [arg]
  | binary _ _ left right | actOnTwo _ left right => [left, right]
  | act _ => []

/-- The step that gives `dest` the value of `source`. -/
def copy (dest source : Address) : Step := unary dest .nop source

def isCopy : Step → Bool
  | unary _ .nop _ => true
  | _ => false

/-- What a step leaves behind in its place once it is condensed away. -/
def neutral : Step := act .condensed

def text : Step → String
  | unary dest op arg => s!"{dest.text} = {op.name} {arg.text}"
  | binary dest op left right => s!"{dest.text} = {left.text} {op.name} {right.text}"
  | act op => op.name
  | actOn op arg => s!"{op.name} {arg.text}"
  | actOnTwo op first second => s!"{op.name} {first.text}, {second.text}"

end Step

end RegisterCode
