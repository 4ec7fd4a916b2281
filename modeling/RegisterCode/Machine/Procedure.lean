import RegisterCode.Machine.Basic
import RegisterCode.Registry

/-!
Procedures that the machine's host provides to programs. A procedure is told
how many arguments it has; they are the topmost registers of the frame, and it
answers in the first of them. The standard procedures print, read numbers and
work on sequences of the store.
-/

namespace RegisterCode

structure Procedure where
  name : String
  run : UInt16 → Action Unit

namespace Machine

/-- The register of the first of `count` arguments. -/
def firstArgument (count : UInt16) : Action Nat := do
  let m ← get
  if m.top < m.base + count.toNat then throw .missingArguments
  else return m.top - count.toNat

/-- The argument with the given number, counted from zero. -/
def argument (count index : UInt16) : Action Value := do
  require (index < count) .noSuchArgument
  let first ← firstArgument count
  read (first + index.toNat)

/-- Writes the answer of a procedure into the register of its first argument. -/
def answer (v : Value) (count : UInt16) : Action Unit := do
  require (count ≠ 0) .noResultRegister
  let first ← firstArgument count
  write first v

/-- All the arguments in order. -/
def arguments (count : UInt16) : Action (Array Value) :=
  go count.toNat #[]
where
  go : Nat → Array Value → Action (Array Value)
    | 0, read => return read
    | n + 1, read => do
      let v ← argument count (count - UInt16.ofNat (n + 1))
      go n (read.push v)

/-- The argument with the given number, which has to be a reference. -/
def reference (count index : UInt16) : Action ObjectId := do
  match ← argument count index with
  | .object id => return id
  | _ => throw .notAReference

/-- The sequence that a reference leads to. -/
def sequence (id : ObjectId) : Action Sequence := do
  need .deadReference ((← get).store.get? id)

/-- Replaces the sequence that a live reference leads to. -/
def putSequence (id : ObjectId) (s : Sequence) : Action Unit :=
  modify fun m => { m with store := m.store.put id s }

/-- Puts a new sequence into the store and gives the reference to it. -/
def createSequence (s : Sequence) : Action Value := fun m =>
  match m.store.create? s with
  | some (id, store) => .ok (.object id) { m with store := store }
  | none => .error .storeFull m

/-- A length as a value, which holds numbers below half the range of a word. -/
def lengthValue (n : Nat) : Action Value := do
  require (2 * n < UInt32.size) .lengthLimit
  return .int (Int32.ofNat n)

end Machine

namespace Procedure

open Machine

/-- Writes a value; of a live reference, the items of the sequence. -/
def print : Procedure where
  name := "print"
  run count := do
    let v ← argument count 0
    match v with
    | .object id =>
      match (← get).store.get? id with
      | some s => writeLine s.text
      | none => writeLine v.text
    | _ => writeLine v.text

/-- Reads a line as a whole number, dud if it is none. -/
def promptInt : Procedure where
  name := "prompt_int"
  run count := do
    let line ← readLine
    answer (((Text.readInt32? (Text.trimmed line)).map Value.int).getD .dud) count

/-- Reads a line as a floating-point number, dud if it is none. -/
def promptFloat : Procedure where
  name := "prompt_float"
  run count := do
    let line ← readLine
    answer (((Decimal.read? (Text.trimmed line)).map Value.float).getD .dud) count

def lenOf : Procedure where
  name := "len_of"
  run count := do
    let s ← sequence (← reference count 0)
    answer (← lengthValue s.size) count

/-- Answers a new empty list. The argument only reserves the register. -/
def makeList : Procedure where
  name := "make_list"
  run count := do
    answer (← createSequence (.list #[])) count

/-- Answers a new tuple of all the arguments. -/
def makeTuple : Procedure where
  name := "make_tuple"
  run count := do
    let items ← arguments count
    answer (← createSequence (.tuple items)) count

/-- Appends an item and answers the new length. -/
def listPush : Procedure where
  name := "list_push"
  run count := do
    let id ← reference count 0
    let v ← argument count 1
    let s ← sequence id
    let s ← need .unchangeable (s.push? v)
    putSequence id s
    answer (← lengthValue s.size) count

/-- Takes the last item off and answers it. -/
def listPop : Procedure where
  name := "list_pop"
  run count := do
    let id ← reference count 0
    let s ← sequence id
    let (v, s) ← need .unchangeable s.pop?
    putSequence id s
    answer v count

/-- Takes the first item off and answers it. -/
def listPopFront : Procedure where
  name := "list_pop_front"
  run count := do
    let id ← reference count 0
    let s ← sequence id
    let (v, s) ← need .unchangeable s.popFront?
    putSequence id s
    answer v count

/-- Appends the items of the second sequence to the first and answers the
first. -/
def listConcat : Procedure where
  name := "list_concat"
  run count := do
    let target ← reference count 0
    let source ← reference count 1
    let items := (← sequence source).items
    let s ← sequence target
    let s ← need .unchangeable (s.append? items)
    putSequence target s
    answer (.object target) count

/-- Answers the item with the given index. -/
def listGet : Procedure where
  name := "list_get"
  run count := do
    let id ← reference count 0
    let index ← match ← argument count 1 with
      | .int n =>
        if n < 0 then throw .indexOutOfRange else pure n.toNatClampNeg
      | _ => throw .badIndex
    let s ← sequence id
    answer (← need .indexOutOfRange s.items[index]?) count

/-- Removes the object and answers whether there was one. -/
def listFree : Procedure where
  name := "list_free"
  run count := do
    let id ← reference count 0
    let destroyed ← modifyGet fun m =>
      let (destroyed, store) := m.store.destroy id
      (destroyed, { m with store := store })
    answer (.bool destroyed) count

/-- The procedures every host provides, in the order of their numbers. -/
def standard : Array Procedure :=
  #[print, promptInt, promptFloat, lenOf, makeList, makeTuple,
    listPush, listPop, listPopFront, listConcat, listGet, listFree]

end Procedure

/-- The names that a table of procedures gives the compiler. -/
def Registry.ofTable (procedures : Array Procedure) : Registry :=
  .ofNames (procedures.map Procedure.name)

def Registry.standard : Registry := .ofTable Procedure.standard

end RegisterCode
