import RegisterCode.Value

/-!
Sequences, the objects of the store: lists that grow and shrink, and tuples,
which are lists frozen at their length.
-/

namespace RegisterCode

structure Sequence where
  items : Array Value
  frozen : Bool
  /-- How many references are held on the sequence. -/
  refs : UInt32
deriving DecidableEq, Repr, Inhabited

namespace Sequence

def list (items : Array Value) : Sequence := ⟨items, false, 0⟩

def tuple (items : Array Value) : Sequence := ⟨items, true, 0⟩

def size (s : Sequence) : Nat := s.items.size

def freeze (s : Sequence) : Sequence := { s with frozen := true }

/-- Appends an item, unless the sequence is frozen. -/
def push? (s : Sequence) (v : Value) : Option Sequence :=
  if s.frozen then none else some { s with items := s.items.push v }

/-- Takes the last item off. -/
def pop? (s : Sequence) : Option (Value × Sequence) :=
  if s.frozen then none
  else s.items.back?.map fun v => (v, { s with items := s.items.pop })

/-- Takes the first item off. -/
def popFront? (s : Sequence) : Option (Value × Sequence) :=
  if s.frozen then none
  else s.items[0]?.map fun v => (v, { s with items := s.items.extract 1 s.items.size })

/-- Appends several items, unless there are some and the sequence is frozen. -/
def append? (s : Sequence) (vs : Array Value) : Option Sequence :=
  if s.frozen && !vs.isEmpty then none else some { s with items := s.items ++ vs }

/-- Replaces an item; frozen sequences allow it, since their length stays. -/
def set? (s : Sequence) (index : Nat) (v : Value) : Option Sequence :=
  if h : index < s.items.size then some { s with items := s.items.set index v } else none

/-- The items between brackets, which are round for a tuple. -/
def text (s : Sequence) : String :=
  let items := ", ".intercalate (s.items.toList.map Value.text)
  if s.frozen then "(" ++ items ++ ")" else "[" ++ items ++ "]"

/-- What one object, and one item, is charged for. -/
def unit : Nat := 16

def memoryScore (s : Sequence) : Nat := s.items.size * unit

end Sequence

end RegisterCode
