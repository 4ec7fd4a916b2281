import Std.Data.HashMap

/-!
The procedures of the machine's host as the compiler sees them: names with
numbers.
-/

namespace RegisterCode

structure Registry where
  ids : Std.HashMap String UInt16

namespace Registry

def empty : Registry := ⟨∅⟩

/-- Gives a name a number, in place of the one it had. -/
def insert (r : Registry) (name : String) (id : UInt16) : Registry :=
  ⟨r.ids.insert name id⟩

def id? (r : Registry) (name : String) : Option UInt16 := r.ids[name]?

def contains (r : Registry) (name : String) : Bool := (r.id? name).isSome

def size (r : Registry) : Nat := r.ids.size

/-- Every name under its place in the list. -/
def ofNames (names : Array String) : Registry :=
  names.zipIdx.foldl (fun r (name, id) => r.insert name (UInt16.ofNat id)) empty

end Registry

end RegisterCode
