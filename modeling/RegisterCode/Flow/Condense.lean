import RegisterCode.Flow.Traversal
import RegisterCode.Journal
import Std.Data.HashMap

/-!
Condensing a flow graph: inside a block, a value that is only passed on by one
copy is computed where it is wanted in the first place. Steps are neutralised
where they stand and never removed, so no position changes.

A temporary can be bypassed when the whole graph writes it once and reads it
once. The copies that feed a call are left alone, since the call finds its
arguments by their place, and nothing is moved across a call.
-/

namespace RegisterCode

/-- How often each temporary is read and written, and how many steps were
bypassed so far. These counts are unbounded; counts in 32 bits agree with them
as long as no temporary is mentioned 2 ^ 32 times or more. -/
structure Tally where
  reads : Std.HashMap Int16 Nat
  writes : Std.HashMap Int16 Nat
  bypassed : Nat

namespace Tally

def bump (counts : Std.HashMap Int16 Nat) (id : Int16) : Std.HashMap Int16 Nat :=
  counts.insert id (counts.getD id 0 + 1)

def countRead (t : Tally) (a : Address) : Tally :=
  if a.isTemp then { t with reads := bump t.reads a.id } else t

def countWrite (t : Tally) (a : Address) : Tally :=
  if a.isTemp then { t with writes := bump t.writes a.id } else t

def countStep (t : Tally) (step : Step) : Tally :=
  let t := step.args.foldl countRead t
  step.dest?.toList.foldl countWrite t

def ofGraph (g : Graph) : Tally :=
  g.blocks.foldl (fun t b => b.steps.foldl countStep t) ⟨∅, ∅, 0⟩

/-- A temporary written once and read once in the whole graph. -/
def isPassing (t : Tally) (a : Address) : Bool :=
  a.isTemp && t.reads[a.id]? = some 1 && t.writes[a.id]? = some 1

/-- Notes that a temporary is bypassed and no longer mentioned. -/
def bypass (t : Tally) (a : Address) : Tally :=
  { reads := t.reads.erase a.id, writes := t.writes.erase a.id, bypassed := t.bypassed + 1 }

end Tally

namespace Step

/-- How many of the steps in front of a call feed it, as far as it says so. -/
def window? : Step → Option Nat
  | actOnTwo op _ ⟨.immediate, count⟩ => if op.isCall then some count.toNatClampNeg else none
  | _ => none

/-- The same value written to another place. -/
def withDest (dest : Address) : Step → Step
  | unary _ op arg => unary dest op arg
  | binary _ op left right => binary dest op left right
  | step => step

end Step

/-- For each step, whether it is a copy that feeds a call behind it. Going from
the last step to the first, `floor` is where the windows of the calls passed so
far begin. -/
def argumentCopies (steps : Array Step) : Array Bool :=
  let (_, _, marks) := steps.foldr (fun step (position, floor, marks) =>
    let position := position - 1
    let pinned := step.isCopy && floor ≤ position
    let floor := match step.window? with
      | some count => min floor (position - count)
      | none => floor
    (position, floor, pinned :: marks)) (steps.size, steps.size, ([] : List Bool))
  marks.toArray

/-- The last step before position `n` that writes the given address. -/
def writerBefore? (steps : Array Step) (a : Address) : Nat → Option Nat
  | 0 => none
  | n + 1 => if steps[n]?.bind Step.dest? = some a then some n else writerBefore? steps a n

def writes (steps : Array Step) (a : Address) : Bool :=
  steps.any fun step => step.dest? = some a

def reads (steps : Array Step) (a : Address) : Bool :=
  steps.any fun step => step.args.contains a

/-- Two steps that take the place of a writer and of the copy behind it. -/
structure Merge where
  writer : Step
  copy : Step

/-- How `writer`, which gives the passing temporary its value, merges with the
copy of that temporary to `dest`, given the steps between them. A copied value
is copied from its origin instead; a computed value is computed into `dest`. -/
def merge? (writer : Step) (between : Array Step) (dest : Address) : Option Merge :=
  if between.any fun step => step.op.isCall then none
  else
    match writer with
    | .unary _ .nop origin =>
      if origin.isTemp && writes between origin then none
      else some ⟨.neutral, .copy dest origin⟩
    | .unary _ .neg _ | .binary .. =>
      if writes between dest || reads between dest then none
      else some ⟨writer.withDest dest, .neutral⟩
    | _ => none

/-- What is to be done about the copy at a position of a block: the position of
the writer, the passing temporary, and the two new steps. -/
def mergeAt? (pinned : Array Bool) (steps : Array Step) (t : Tally) (position : Nat) :
    Option (Nat × Address × Merge) := do
  if pinned.getD position false then none
  else
    match ← steps[position]? with
    | .unary dest .nop middle =>
      if t.isPassing middle then
        let origin ← writerBefore? steps middle position
        if pinned.getD origin false then none
        else
          let writer ← steps[origin]?
          let merge ← merge? writer (steps.extract (origin + 1) position) dest
          some (origin, middle, merge)
      else none
    | _ => none

/-- Merges the copy at a position with its writer, where that is possible. -/
def mergeAt (pinned : Array Bool) (state : Array Step × Tally) (position : Nat) :
    Array Step × Tally :=
  match mergeAt? pinned state.1 state.2 position with
  | some (origin, middle, merge) =>
    ((state.1.setIfInBounds position merge.copy).setIfInBounds origin merge.writer,
      state.2.bypass middle)
  | none => state

/-- Merges what can be merged in one block, from the first step to the last. -/
def condenseSteps (steps : Array Step) (t : Tally) : Array Step × Tally :=
  let pinned := argumentCopies steps
  (List.range steps.size).foldl (mergeAt pinned) (steps, t)

namespace Graph

/-- Condenses one block. If it is missing, the graph is refused. -/
def condenseBlock (state : Graph × Tally) (id : BlockId) : Option (Graph × Tally) :=
  let (g, t) := state
  match g.blocks[id]? with
  | some b =>
    let (steps, t) := condenseSteps b.steps t
    some ({ g with blocks := g.blocks.setIfInBounds id { b with steps := steps } }, t)
  | none => none

/-- Whether the graph has an entry and all its edges lead to blocks. -/
def isCondensable (g : Graph) : Bool := !g.blocks.isEmpty && g.edgesInside

/-- The condensed graph and how many steps were bypassed. A graph is refused if
it is not well formed, or when the walk over it comes to a block that is missing. -/
def condense? (g : Graph) : Option (Graph × Nat) :=
  if g.isCondensable then
    match g.reachable.foldlM condenseBlock (g, Tally.ofGraph g) with
    | some (condensed, t) => some (condensed, t.bypassed)
    | none => none
  else none

def condenseNotes : Option (Graph × Nat) → List Note
  | some (_, count) => [⟨.debug, s!"condenser applied {count} rewrite(s)"⟩]
  | none => []

end Graph

/-- A bundle after condensing, whether all its graphs were condensed, and the
notes made of it. -/
structure Condensed where
  bundle : Bundle
  complete : Bool
  notes : Array Note

/-- What is remarked on the graph of a function that was or was not condensed. -/
def Bundle.condenseNotes (func : Nat) (result : Option (Graph × Nat)) : List Note :=
  if result.isNone then [⟨.warn, s!"condenser skipped function #{func}"⟩]
  else Graph.condenseNotes result

/-- Condenses every graph; one that is refused stays as it is. -/
def Bundle.condense (b : Bundle) : Condensed :=
  let results := b.graphs.map fun g => (g, g.condense?)
  { bundle := { b with graphs := results.map fun (g, r) => (r.map Prod.fst).getD g }
    complete := results.all fun (_, r) => r.isSome
    notes := results.zipIdx.flatMap fun ((_, r), func) => (condenseNotes func r).toArray }

end RegisterCode
