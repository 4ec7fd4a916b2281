import RegisterCode.Flow.Graph

/-!
Two walks over the blocks that can be reached from the entry of a graph. One
goes depth first, to missing blocks as to any others; the other takes the lowest
waiting block next and reports the first edge that leads nowhere.
-/

namespace RegisterCode

namespace Graph

/-- The successors of a block; none if there is no such block. -/
def successors (g : Graph) (id : BlockId) : List BlockId :=
  (g.blocks[id]?.map Block.successors).getD []

/-- The blocks that can be reached, each once, and those missing where an edge
leads to them. Of the blocks waiting, the one found last is next. A block leads
on along two edges at most, so there is an end after twice as many turns as there
are blocks, and one more. -/
def depthFirst (g : Graph) : Nat → List BlockId → Array Bool → Array BlockId → Array BlockId
  | 0, _, _, order => order
  | _ + 1, [], _, order => order
  | n + 1, id :: waiting, seen, order =>
    if seen.getD id false then depthFirst g n waiting seen order
    else
      let seen := seen.setIfInBounds id true
      let found := (g.successors id).filter fun s => !seen.getD s false
      depthFirst g n (found.reverse ++ waiting) seen (order.push id)

def reachable (g : Graph) : Array BlockId :=
  g.depthFirst (2 * g.blocks.size + 1) [0] (Array.replicate g.blocks.size false) #[]

end Graph

/-- The order in which the blocks of a graph are laid out, up to an edge that
leads nowhere, if there is one. -/
structure Traversal where
  order : Array BlockId
  missing : Option (BlockId × BlockId)
deriving DecidableEq, Repr

/-- Adds a number to an increasing list, unless it is there already. -/
def insertId (id : BlockId) : List BlockId → List BlockId
  | [] => [id]
  | first :: rest =>
    if id < first then id :: first :: rest
    else if id = first then first :: rest
    else first :: insertId id rest

namespace Graph

/-- Visits the waiting blocks, always the lowest of them next. Each turn visits
another block, so there are not more turns than blocks, and one more for an
entry that is missing. -/
def layOutFrom (g : Graph) : Nat → List BlockId → Array Bool → Array BlockId → Traversal
  | 0, _, _, order => ⟨order, none⟩
  | _ + 1, [], _, order => ⟨order, none⟩
  | n + 1, id :: waiting, seen, order =>
    match g.blocks[id]? with
    | none => ⟨order, some (id, id)⟩
    | some b =>
      let seen := seen.setIfInBounds id true
      let order := order.push id
      match b.successors.find? fun s => g.blocks.size ≤ s with
      | some s => ⟨order, some (id, s)⟩
      | none =>
        let found := b.successors.filter fun s => !seen.getD s true
        layOutFrom g n (found.foldl (fun ids s => insertId s ids) waiting) seen order

def layOut (g : Graph) : Traversal :=
  g.layOutFrom (g.blocks.size + 1) [0] (Array.replicate g.blocks.size false) #[]

end Graph

end RegisterCode
