import RegisterCode.Flow.Step

/-!
Flow graphs: the blocks of one function, the edges between them, and the bundle
of all the graphs of a program with their constant pool.
-/

namespace RegisterCode

/-- The number of a block in its graph. -/
abbrev BlockId := Nat

/-- Steps in a straight line, left along at most two edges. -/
structure Block where
  steps : Array Step
  truthy : Option BlockId
  falsy : Option BlockId
deriving DecidableEq, Repr, Inhabited

def Block.empty : Block := ⟨#[], none, none⟩

/-- The targets of the edges, the truthy one first. -/
def Block.successors (b : Block) : List BlockId :=
  b.truthy.toList ++ b.falsy.toList

/-- Whether there is a place left for an edge. -/
def Block.hasRoom (b : Block) : Bool := b.truthy.isNone || b.falsy.isNone

/-- Adds an edge in the first free place; a block without room stays as it is. -/
def Block.link (b : Block) (target : BlockId) : Block :=
  if b.truthy.isNone then { b with truthy := some target }
  else if b.falsy.isNone then { b with falsy := some target }
  else b

def Block.push (b : Block) (step : Step) : Block :=
  { b with steps := b.steps.push step }

/-- The graph of one function. Block 0 is where it is entered, and the first
`paramCount` temporaries hold its parameters. -/
structure Graph where
  blocks : Array Block
  paramCount : UInt16
deriving DecidableEq, Repr, Inhabited

namespace Graph

def empty : Graph := ⟨#[], 0⟩

def addBlock (g : Graph) : Graph :=
  { g with blocks := g.blocks.push .empty }

/-- The number of the block added last. -/
def newest? (g : Graph) : Option BlockId :=
  if g.blocks.isEmpty then none else some (g.blocks.size - 1)

/-- Whether a block exists and has room for one more edge. -/
def canLink (g : Graph) (source : BlockId) : Bool :=
  g.blocks[source]?.any Block.hasRoom

/-- Adds an edge, where there is room for it. The target need not exist. -/
def link (g : Graph) (source target : BlockId) : Graph :=
  { g with blocks := g.blocks.modify source fun b => b.link target }

/-- Appends a step to a block, where there is one. -/
def push (g : Graph) (id : BlockId) (step : Step) : Graph :=
  { g with blocks := g.blocks.modify id fun b => b.push step }

/-- Appends a step to the block added last. -/
def pushNewest (g : Graph) (step : Step) : Graph :=
  g.push (g.blocks.size - 1) step

/-- Every edge leads to a block of the graph. -/
def edgesInside (g : Graph) : Bool :=
  g.blocks.all fun b => b.successors.all (· < g.blocks.size)

/-- All the steps, block after block. -/
def steps (g : Graph) : List Step :=
  g.blocks.toList.flatMap fun b => b.steps.toList

def stepCount (g : Graph) : Nat :=
  g.blocks.foldl (fun n b => n + b.steps.size) 0

def blockText (id : BlockId) (b : Block) : String :=
  let edge (target : Option BlockId) : String :=
    match target with
    | none => "-"
    | some id => s!"bb{id}"
  let lines := b.steps.foldl (fun s step => s ++ "    " ++ step.text ++ "\n") s!"bb{id}:\n"
  lines ++ s!"    -> {edge b.truthy} / {edge b.falsy}\n"

def text (g : Graph) : String :=
  g.blocks.zipIdx.foldl (fun s (b, id) => s ++ blockText id b) ""

end Graph

/-- The graphs of a program in the order of its functions, the pool of
constants they share, and the number of the function to start in. -/
structure Bundle where
  graphs : Array Graph
  constants : Array Value
  main : Option Nat
deriving DecidableEq, Repr, Inhabited

def Bundle.text (b : Bundle) : String :=
  let pool := b.constants.zipIdx.foldl (fun s (v, id) => s ++ s!"c{id} = {v.text}\n") ""
  b.graphs.zipIdx.foldl (fun s (g, id) =>
    let marker := if b.main = some id then " (main)" else ""
    s ++ s!"fun #{id}{marker}:\n" ++ g.text) pool

end RegisterCode
