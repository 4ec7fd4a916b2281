import RegisterCode.Code.Instruction
import RegisterCode.Flow.Graph

/-!
Why a flow graph has no code, and the wording of each reason. All but the last
four name the function at hand.
-/

namespace RegisterCode

inductive EmissionError where
  /-- An address that stands for no location. -/
  | unresolvedOperand (func : Nat) (a : Address)
  /-- A step that no instruction stands for. -/
  | unsupportedStep (func : Nat) (step : Step)
  /-- An edge to a block that does not exist. -/
  | missingBlock (func : Nat) (source target : BlockId)
  /-- All register slots are taken. -/
  | slotExhausted (func : Nat)
  /-- A number too large for an operand. -/
  | operandOverflow (func value : Nat)
  /-- A marker that finds fewer remembered jumps than it needs. -/
  | patchUnderflow (func : Nat) (marker : Op)
  /-- A marker that finds another kind of jump. -/
  | patchMismatch (func : Nat) (expected found : Opcode)
  /-- Jumps that were remembered and never given a target. -/
  | unbalancedPatches (func pending : Nat)
  /-- More slots were freed than were taken. -/
  | slotUnderflow (func : Nat)
  | saveBeforeCode
  | patchBeforeCode
  | lostPatch
deriving DecidableEq, Repr

namespace EmissionError

def reason : EmissionError → String
  | unresolvedOperand func a => s!"cannot resolve operand '{a.text}' in function #{func}"
  | unsupportedStep func step => s!"no encoding for step '{step.text}' in function #{func}"
  | missingBlock func source target =>
    s!"bb{source} of function #{func} links to missing bb{target}"
  | slotExhausted func => s!"function #{func} ran out of register slots"
  | operandOverflow func value => s!"value {value} does not fit an operand in function #{func}"
  | patchUnderflow func marker =>
    s!"'{marker.name}' in function #{func} has no saved jump to patch"
  | patchMismatch func expected found =>
    s!"patch in function #{func} expected '{expected.mnemonic}' but found '{found.mnemonic}'"
  | unbalancedPatches func pending => s!"function #{func} ends with {pending} unpatched jump(s)"
  | slotUnderflow func => s!"internal error: slot counter underflow in function #{func}"
  | saveBeforeCode => "internal error: save patch marker before any instruction"
  | patchBeforeCode => "internal error: patch marker before any instruction"
  | lostPatch => "internal error: saved patch position out of range"

def message (e : EmissionError) : String := "emit error: " ++ e.reason

end EmissionError

end RegisterCode
