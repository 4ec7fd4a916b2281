import RegisterCode.Code.Instruction
import RegisterCode.Text.Integer

/-!
Programs: the code of each function, the pool of constants they share, and the
number of the function to enter.
-/

namespace RegisterCode

/-- The instructions of one function. -/
abbrev Chunk := Array Instruction

structure Program where
  chunks : Array Chunk
  constants : Array Value
  entry : Option UInt64
deriving DecidableEq, Repr, Inhabited

namespace Program

/-- The function to enter, if the program has it. -/
def entry? (p : Program) : Option Nat :=
  (p.entry.map (·.toNat)).filter (· < p.chunks.size)

/-- The instruction of a function at a place in its code. -/
def fetch? (p : Program) (func place : Nat) : Option Instruction :=
  p.chunks[func]?.bind (·[place]?)

/-- One line: the place, with at least four digits, and the instruction. -/
def instructionText (place : Nat) (i : Instruction) : String :=
  s!"  {Text.zeroPadded 4 place} {i.text}\n"

def chunkText (marker : String) (id : Nat) (chunk : Chunk) : String :=
  chunk.zipIdx.foldl (fun s (i, place) => s ++ instructionText place i)
    s!"chunk #{id}{marker}: {chunk.size} instructions\n"

/-- The listing: the pool, then each function's code. -/
def text (p : Program) : String :=
  let pool := p.constants.zipIdx.foldl (fun s (v, id) =>
    s ++ s!"  c{Text.leftAligned 4 (toString id)} {v.text}\n") "constants:\n"
  p.chunks.zipIdx.foldl (fun s (chunk, id) =>
    let marker := if p.entry.map (·.toNat) = some id then " (entry)" else ""
    s ++ chunkText marker id chunk) pool

end Program

end RegisterCode
