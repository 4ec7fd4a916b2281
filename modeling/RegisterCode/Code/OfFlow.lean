import RegisterCode.Code.EmissionError
import RegisterCode.Code.Program
import RegisterCode.Flow.Traversal
import RegisterCode.Journal
import Std.Data.HashMap

/-!
From flow graphs to code. Blocks are emitted in the order of their numbers as
far as they can be reached. Parameters have the first register slots of a
frame; every other temporary gets the next slot when it is first mentioned.
While an operator is computed its operands stand above all the slots in use, so
the next free slot follows the top of the frame.
-/

namespace RegisterCode

/-- The code of the function at hand and what is known about it so far. -/
structure Emitter where
  code : Array Instruction
  /-- Positions of jumps that still lack a target, the latest in front. -/
  patches : List Nat
  /-- The slots of temporaries other than parameters. -/
  slots : Std.HashMap Int16 Nat
  nextSlot : Nat
  notes : Array Note

/-- What emission works with and does not change. -/
structure EmissionContext where
  func : Nat
  paramCount : UInt16
  /-- The size of the pool. -/
  constants : Nat

/-- A change of the emitter that can fail. -/
abbrev Emission := EStateM EmissionError Emitter

namespace Emitter

def start (paramCount : UInt16) : Emitter :=
  ⟨#[], [], ∅, paramCount.toNat, #[]⟩

/-- Moves the next free slot. -/
def adjust (f : EmissionContext) (delta : Int) : Emission Unit := fun e =>
  let next := (e.nextSlot : Int) + delta
  if next < 0 then .error (.slotUnderflow f.func) e
  else if (UInt16.size : Int) ≤ next then .error (.slotExhausted f.func) e
  else .ok () { e with nextSlot := next.toNat }

def append (i : Instruction) : Emission Unit :=
  modify fun e => { e with code := e.code.push i }

/-- Emits an instruction, which moves the top of the frame as it says. -/
def emit (f : EmissionContext) (i : Instruction) : Emission Unit := do
  adjust f i.stackDelta
  append i

/-- The slot of a temporary, a new one if it has none yet. -/
def slotOf (f : EmissionContext) (temp : Int16) : Emission Nat := fun e =>
  if temp.toUInt16 < f.paramCount then .ok temp.toUInt16.toNat e
  else
    match e.slots[temp]? with
    | some slot => .ok slot e
    | none =>
      let slot := e.nextSlot
      if UInt16.size ≤ slot + 1 then .error (.slotExhausted f.func) e
      else .ok slot { e with slots := e.slots.insert temp slot, nextSlot := slot + 1 }

/-- The operand that an address becomes. -/
def resolve (f : EmissionContext) (a : Address) : Emission Operand := do
  match a.space with
  | .immediate => return .immediate a.id
  | .constant =>
    if 0 ≤ a.id ∧ a.id.toNatClampNeg < f.constants then return .constant a.id
    else throw (.unresolvedOperand f.func a)
  | .object => return .object a.id
  | .temp =>
    let slot ← slotOf f a.id
    if slot < numberRange then return .register (Int16.ofNat slot)
    else throw (.operandOverflow f.func slot)

/-- The operand of an address that is written to. -/
def resolveDest (f : EmissionContext) (a : Address) : Emission Operand :=
  if a.isTemp then resolve f a else throw (.unresolvedOperand f.func a)

/-- Remembers the instruction just emitted as a jump without a target. -/
def savePatch : Emission Unit := fun e =>
  if e.code.isEmpty then .error .saveBeforeCode e
  else .ok () { e with patches := (e.code.size - 1) :: e.patches }

/-- Exchanges the two jumps remembered last. -/
def shufflePatches (f : EmissionContext) : Emission Unit := fun e =>
  match e.patches with
  | a :: b :: rest => .ok () { e with patches := b :: a :: rest }
  | _ => .error (.patchUnderflow f.func .shufflePatch) e

/-- Takes the jump remembered last. -/
def takePatch (f : EmissionContext) (marker : Op) : Emission Nat := fun e =>
  match e.patches with
  | position :: rest => .ok position { e with patches := rest }
  | [] => .error (.patchUnderflow f.func marker) e

/-- A conditional jump of either kind can be asked for as one of the second. -/
def acceptsJump (expected found : Opcode) : Bool :=
  found = expected || (expected = .jumpElse && found = .jumpIf)

/-- Gives the jump remembered last the instruction just emitted as its target,
in the slot where such a jump has it. -/
def patch (f : EmissionContext) (marker : Op) (expected : Opcode) (slot : Nat) : Emission Unit := do
  let position ← takePatch f marker
  let size := (← get).code.size
  if size = 0 then throw .patchBeforeCode
  let target := size - 1
  if numberRange ≤ target then throw (.operandOverflow f.func target)
  match (← get).code[position]? with
  | none => throw .lostPatch
  | some i =>
    if acceptsJump expected i.op then
      let direction := if position < target then "forward" else "backward"
      let text := s!"patched {expected.mnemonic} at {position} -> {target} ({direction})"
      modify fun e => { e with
        code := e.code.modify position fun i =>
          { i with args := i.args.set (Int16.ofNat target) slot }
        notes := e.notes.push ⟨.trace, text⟩ }
    else throw (.patchMismatch f.func expected i.op)

/-- Computes an operator of two operands on top of the frame. The result leaves
the frame's top before its destination is looked up, so that a new temporary
takes the slot it leaves. -/
def emitBinary (f : EmissionContext) (op : BinaryOp) (dest left right : Address) :
    Emission Unit := do
  let left ← resolve f left
  emit f (.unary .push left)
  let right ← resolve f right
  emit f (.unary .push right)
  emit f (.nonary (.binary op))
  adjust f (-1)
  let dest ← resolveDest f dest
  append (.binary .mov dest .stack)

/-- The code of one step. -/
def emitStep (f : EmissionContext) (step : Step) : Emission Unit := do
  let unsupported := EmissionError.unsupportedStep f.func step
  match step with
  | .unary dest .nop arg =>
    let source ← resolve f arg
    let dest ← resolveDest f dest
    emit f (.binary .mov dest source)
  | .unary dest .neg arg =>
    let source ← resolve f arg
    let dest ← resolveDest f dest
    if dest ≠ source then emit f (.binary .mov dest source)
    emit f (.unary .neg dest)
  | .unary _ _ _ => throw unsupported
  | .binary dest (.binary op) left right => emitBinary f op dest left right
  | .binary _ _ _ _ => throw unsupported
  | .act .nop => emit f (.nonary .nop)
  | .act .halt => emit f (.nonary .halt)
  | .act .condensed => return ()
  | .act .savePatch => savePatch
  | .act .shufflePatch => shufflePatches f
  | .act .patchJump => patch f .patchJump .jump 0
  | .act .patchJumpElse => patch f .patchJumpElse .jumpElse 1
  | .act _ => throw unsupported
  | .actOn .jump arg => emit f (.unary .jump (← resolve f arg))
  | .actOn .ret arg => emit f (.unary .ret (← resolve f arg))
  | .actOn _ _ => throw unsupported
  | .actOnTwo .jumpElse a b => emit f (.binary .jumpElse (← resolve f a) (← resolve f b))
  | .actOnTwo .jumpIf a b => emit f (.binary .jumpIf (← resolve f a) (← resolve f b))
  | .actOnTwo .call a b => emit f (.binary .call (← resolve f a) (← resolve f b))
  | .actOnTwo .nativeCall a b => emit f (.binary .nativeCall (← resolve f a) (← resolve f b))
  | .actOnTwo _ _ _ => throw unsupported

end Emitter

namespace Graph

/-- The steps of the blocks laid out, in order. -/
def emitLaidOut (g : Graph) (f : EmissionContext) : Emission Chunk := do
  let t := g.layOut
  for id in t.order do
    for step in (g.blocks[id]?.map Block.steps).getD #[] do
      Emitter.emitStep f step
  match t.missing with
  | some (source, target) => throw (.missingBlock f.func source target)
  | none => pure ()
  let pending := (← get).patches.length
  if pending ≠ 0 then throw (.unbalancedPatches f.func pending)
  return (← get).code

end Graph

/-- What became of an emission, and the notes made of it. -/
structure Emitted (α : Type) where
  result : Except EmissionError α
  notes : Array Note

/-- The code of one function, for a pool of the given size. -/
def Graph.emit (g : Graph) (constants func : Nat) : Emitted Chunk :=
  match g.emitLaidOut ⟨func, g.paramCount, constants⟩ (Emitter.start g.paramCount) with
  | .ok code e => ⟨.ok code, e.notes⟩
  | .error error e => ⟨.error error, e.notes⟩

/-- Emits the graphs in order, until one of them fails. -/
def emitGraphs (constants : Nat) : List Graph → Array Chunk → Array Note → Emitted (Array Chunk)
  | [], chunks, notes => ⟨.ok chunks, notes⟩
  | g :: rest, chunks, notes =>
    let emitted := g.emit constants chunks.size
    let notes := notes ++ emitted.notes
    match emitted.result with
    | .ok chunk =>
      let text := s!"function #{chunks.size} emitted {chunk.size} instructions"
      emitGraphs constants rest (chunks.push chunk) (notes.push ⟨.debug, text⟩)
    | .error error => ⟨.error error, notes.push ⟨.error, error.message⟩⟩

/-- The program of a bundle, with the notes made on the way. -/
def Bundle.emit (b : Bundle) : Emitted Program :=
  let emitted := emitGraphs b.constants.size b.graphs.toList #[] #[]
  { result := emitted.result.map fun chunks =>
      ⟨chunks, b.constants, b.main.map UInt64.ofNat⟩
    notes := emitted.notes }

/-- The program that a bundle stands for. All its functions have code, or the
first reason why one has none. -/
def Program.ofBundle (b : Bundle) : Except EmissionError Program := b.emit.result

end RegisterCode
