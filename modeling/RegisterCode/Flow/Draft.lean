import RegisterCode.Flow.Rejection
import RegisterCode.Journal
import RegisterCode.Registry

/-!
The compiler's working state while it turns statement trees into flow graphs,
and the small moves it makes on it. Names are kept apart by reach: functions
and literals are known everywhere, parameters and locals in one function.
-/

namespace RegisterCode

/-- How many temporaries, and how many functions, can be numbered: the number
after the last one has to fit an address as well. -/
def numberLimit : Nat := 32767

structure Draft where
  /-- Functions by name, and literals by lexeme. -/
  globals : Std.HashMap String Address
  /-- Parameters and locals of the function at hand. -/
  locals : Std.HashMap String Address
  constants : Array Value
  /-- The graph of the function at hand, while there is one. -/
  current : Option Graph
  /-- Edges to be added once the function is complete, in this order. -/
  links : Array (BlockId × BlockId)
  /-- How many temporaries the function uses so far. -/
  temps : Nat
  /-- The graphs of the functions already left. -/
  graphs : Array Graph
  /-- How many functions are declared so far. -/
  functions : Nat
  main : Option Nat
  rejections : Array Rejection
  notes : Array Note

/-- What is known about the place a statement stands in. -/
structure Context where
  procedures : Registry
  source : String

/-- A change of the draft that can be rejected. What it did before stays. -/
abbrev Drafting := EStateM Rejection Draft

namespace Draft

def empty : Draft where
  globals := ∅
  locals := ∅
  constants := #[]
  current := none
  links := #[]
  temps := 0
  graphs := #[]
  functions := 0
  main := none
  rejections := #[]
  notes := #[]

/-- The graph of the function at hand, empty if there is none. -/
def graph (d : Draft) : Graph := d.current.getD .empty

def note (d : Draft) (level : Level) (text : String) : Draft :=
  { d with notes := d.notes.push ⟨level, text⟩ }

/-- Keeps a rejection and remarks on it under its running number. -/
def reject (d : Draft) (r : Rejection) : Draft :=
  let d := { d with rejections := d.rejections.push r }
  d.note .error s!"{r.message} (#{d.rejections.size})"

/-- Makes a change; if it is rejected, that is kept and work goes on. -/
def attempt (change : Drafting Unit) (d : Draft) : Draft :=
  match change d with
  | .ok _ d => d
  | .error r d => d.reject r

/-- Numbers a function. The first one called `main` is the one to start in, and
of several with one name the first is the one that is called. -/
def declare (name : String) : Drafting Unit := fun d =>
  if numberLimit ≤ d.functions then .error .tooManyFunctions d
  else
    let id := d.functions
    let known := d.globals.contains name
    let d := { d with
      functions := id + 1
      main := if name = "main" then d.main <|> some id else d.main }
    if known then
      let text := s!"function '{name}' is declared more than once, keeping the first declaration"
      .ok () (d.note .warn text)
    else
      .ok () { d with globals := d.globals.insert name (.immediate (Int16.ofNat id)) }

/-- The next temporary not in use. -/
def newTemp : Drafting Address := fun d =>
  if numberLimit ≤ d.temps then .error .tooManyTemps d
  else .ok (.temp (Int16.ofNat d.temps)) { d with temps := d.temps + 1 }

/-- Opens a new block and gives its number. -/
def newBlock : Drafting BlockId := fun d =>
  match d.current with
  | none => .error (@Rejection.noBlock .function) d
  | some g => .ok g.blocks.size { d with current := some g.addBlock }

/-- The number of the block that steps go to. -/
def newestBlock : Drafting BlockId := fun d =>
  match d.current with
  | none => .error (@Rejection.noBlock .function) d
  | some g =>
    match g.newest? with
    | some id => .ok id d
    | none => .error (@Rejection.noBlock .block) d

/-- Appends a step to the newest block. -/
def push (step : Step) : Drafting Unit := fun d =>
  match d.current with
  | none => .error (@Rejection.noBlock .function) d
  | some g =>
    if g.blocks.isEmpty then .error (@Rejection.noBlock .block) d
    else .ok () { d with current := some (g.pushNewest step) }

/-- Asks for an edge, to be added when the function is complete. -/
def linkLater (source target : BlockId) : Drafting Unit :=
  modify fun d => { d with links := d.links.push (source, target) }

/-- Adds one of the edges asked for. -/
def link (edge : BlockId × BlockId) : Drafting Unit := fun d =>
  if d.graph.canLink edge.1 then
    .ok () { d with current := some (d.graph.link edge.1 edge.2) }
  else .error (.noLink edge.1 edge.2) d

/-- The address of a literal. Equal lexemes share an entry of the pool. -/
def intern (lexeme : String) (v : Value) : Drafting Address := fun d =>
  match d.globals[lexeme]? with
  | some a => .ok a d
  | none =>
    if numberRange ≤ d.constants.size then .error .tooManyConstants d
    else
      let a := Address.constant (Int16.ofNat d.constants.size)
      .ok a { d with
        constants := d.constants.push v
        globals := d.globals.insert lexeme a }

/-- What a name stands for; what is known everywhere comes first. -/
def lookup? (d : Draft) (name : String) : Option Address :=
  d.globals[name]? <|> d.locals[name]?

/-- Names an address in the function at hand. -/
def bindLocal (name : String) (a : Address) : Drafting Unit :=
  modify fun d => { d with locals := d.locals.insert name a }

/-- Starts a function: one empty block and no names or temporaries. -/
def enter (d : Draft) : Draft :=
  { d with current := some Graph.empty.addBlock, locals := ∅, links := #[], temps := 0 }

/-- Leaves a function, whose graph is kept even if it is not complete, so that
the graphs stay in the order of the functions' numbers. -/
def close (d : Draft) : Draft :=
  { d with
    graphs := d.graphs.push d.graph
    current := none
    locals := ∅
    links := #[]
    temps := 0 }

end Draft

end RegisterCode
