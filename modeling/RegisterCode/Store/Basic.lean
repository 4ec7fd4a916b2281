import RegisterCode.Journal
import RegisterCode.Store.Sequence

/-!
The object store: numbered slots that hold sequences. A slot that becomes empty
joins a queue, and new objects take the slot that has waited longest before a
slot that was never used. Every object is charged the same, and the total
charge is bounded.
-/

namespace RegisterCode

structure Store where
  slots : Array (Option Sequence)
  /-- The empty slots, the one that has waited longest in front. -/
  free : List Nat
  /-- The charge for all the objects held. -/
  charge : Nat
deriving DecidableEq, Repr, Inhabited

namespace Store

/-- The largest total charge. -/
def capacity : Nat := 16384

/-- From this charge on the store asks to be cleared of objects not needed. -/
def ripeness : Nat := 8192

def empty : Store := ⟨#[], [], 0⟩

/-- The object in a slot. -/
def get? (s : Store) (id : ObjectId) : Option Sequence :=
  (s.slots[id.toNat]?).join

def isLive (s : Store) (id : ObjectId) : Bool := (s.get? id).isSome

/-- Whether the charge leaves no room for one more object. -/
def isFull (s : Store) : Bool := capacity < s.charge + Sequence.unit

/-- Puts an object into the slot that has waited longest, or a new one. -/
def create? (s : Store) (object : Sequence) : Option (ObjectId × Store) :=
  if s.isFull then none
  else
    let charge := s.charge + Sequence.unit
    match s.free with
    | slot :: free =>
      some (UInt32.ofNat slot, ⟨s.slots.set! slot (some object), free, charge⟩)
    | [] => some (UInt32.ofNat s.slots.size, ⟨s.slots.push (some object), [], charge⟩)

/-- The note made when a full store refuses an object. -/
def refusalNotes (s : Store) : List Note :=
  [⟨.warn, s!"heap store is full ({s.charge} units)"⟩]

/-- Replaces the object in a slot that holds one. -/
def put (s : Store) (id : ObjectId) (object : Sequence) : Store :=
  if s.isLive id then { s with slots := s.slots.set! id.toNat (some object) } else s

/-- Empties a slot; the answer says whether it held an object. -/
def destroy (s : Store) (id : ObjectId) : Bool × Store :=
  if s.isLive id then
    (true, ⟨s.slots.set! id.toNat none, s.free ++ [id.toNat], s.charge - Sequence.unit⟩)
  else (false, s)

/-- Counts one more reference on an object, if the slot holds one. -/
def retain (s : Store) (id : ObjectId) : Bool × Store :=
  match s.get? id with
  | some object => (true, s.put id { object with refs := object.refs + 1 })
  | none => (false, s)

/-- Counts one reference less, never below zero, and empties the slot when none
is left. -/
def release (s : Store) (id : ObjectId) : Bool × Store :=
  match s.get? id with
  | some object =>
    let refs := if object.refs = 0 then 0 else object.refs - 1
    let s := s.put id { object with refs := refs }
    (true, if refs = 0 then (s.destroy id).2 else s)
  | none => (false, s)

def liveCount (s : Store) : Nat := s.slots.countP Option.isSome

def isRipe (s : Store) : Bool := ripeness ≤ s.charge

end Store

end RegisterCode
