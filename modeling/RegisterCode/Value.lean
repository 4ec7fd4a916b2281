import RegisterCode.Binary64

/-!
The values a program computes with. Every operator is total: operands of the
wrong kinds, or a zero divisor, give the dud value instead of a failure.
-/

namespace RegisterCode

/-- Number of a slot in the object store. -/
abbrev ObjectId := UInt32

inductive Value where
  /-- The failed or absent value. -/
  | dud
  | bool (b : Bool)
  /-- A signed number of 32 bits whose arithmetic wraps around. -/
  | int (n : Int32)
  | float (x : Binary64)
  /-- A reference to an object of the store. -/
  | object (id : ObjectId)
deriving DecidableEq, Repr, Inhabited

namespace Value

def isDud : Value → Bool
  | dud => true
  | _ => false

/-- Numeric zero of either numeric kind. -/
def isZero : Value → Bool
  | int n => n = 0
  | float x => x.isZero
  | _ => false

/-- Which way a conditional jump goes on this value, if it decides one. -/
def truthy? : Value → Option Bool
  | bool b => some b
  | int n => some (n ≠ 0)
  | float x => some (!x.isZero)
  | dud | object _ => none

def kindName : Value → String
  | dud => "dud"
  | bool _ => "bool"
  | int _ => "int"
  | float _ => "float"
  | object _ => "heap"

/-- Two values have the same kind. -/
def sameKind (a b : Value) : Bool := a.kindName = b.kindName

def text : Value → String
  | dud => "dud"
  | bool true => "true"
  | bool false => "false"
  | int n => toString n
  | float x => x.text
  | object id => s!"<seq #{id}>"

/-- Same kind and same content, floating-point numbers compared as numbers. -/
def same : Value → Value → Bool
  | float x, float y => x.eq y
  | a, b => a = b

/-- Negation of a number, complement of a truth value. -/
def neg : Value → Value
  | bool b => bool !b
  | int n => int (-n)
  | float x => float x.neg
  | _ => dud

def add : Value → Value → Value
  | int a, int b => int (a + b)
  | float x, float y => float (x.add y)
  | _, _ => dud

def sub : Value → Value → Value
  | int a, int b => int (a - b)
  | float x, float y => float (x.sub y)
  | _, _ => dud

def mul : Value → Value → Value
  | int a, int b => int (a * b)
  | float x, float y => float (x.mul y)
  | _, _ => dud

/-- The quotient, cut off toward zero on whole numbers. -/
def div : Value → Value → Value
  | int a, int b => if b = 0 then dud else int (a / b)
  | float x, float y => if y.isZero then dud else float (x.div y)
  | _, _ => dud

/-- The remainder of `div`, with the sign of the dividend. Floating-point
numbers have none. -/
def rem : Value → Value → Value
  | int a, int b => if b = 0 then dud else int (a % b)
  | _, _ => dud

def equ : Value → Value → Value
  | bool a, bool b => bool (a = b)
  | int a, int b => bool (a = b)
  | float x, float y => bool (x.eq y)
  | object a, object b => bool (a = b)
  | _, _ => dud

def neq (a b : Value) : Value := (a.equ b).neg

def lt : Value → Value → Value
  | int a, int b => bool (a < b)
  | float x, float y => bool (x.lt y)
  | _, _ => dud

def gt (a b : Value) : Value := b.lt a

def lte : Value → Value → Value
  | int a, int b => bool (a ≤ b)
  | float x, float y => bool (x.le y)
  | _, _ => dud

def gte (a b : Value) : Value := b.lte a

end Value

/-- The operators that take two values to one. -/
inductive BinaryOp where
  | mul
  | div
  | mod
  | add
  | sub
  | equ
  | neq
  | lt
  | gt
  | lte
  | gte
deriving DecidableEq, Repr

namespace BinaryOp

def all : List BinaryOp := [mul, div, mod, add, sub, equ, neq, lt, gt, lte, gte]

theorem mem_all (op : BinaryOp) : op ∈ all := by
  cases op <;> decide

def name : BinaryOp → String
  | mul => "mul"
  | div => "div"
  | mod => "mod"
  | add => "add"
  | sub => "sub"
  | equ => "equ"
  | neq => "neq"
  | lt => "lt"
  | gt => "gt"
  | lte => "lte"
  | gte => "gte"

def apply : BinaryOp → Value → Value → Value
  | mul => Value.mul
  | div => Value.div
  | mod => Value.rem
  | add => Value.add
  | sub => Value.sub
  | equ => Value.equ
  | neq => Value.neq
  | lt => Value.lt
  | gt => Value.gt
  | lte => Value.lte
  | gte => Value.gte

/-- The operators that divide, and so refuse a zero divisor. -/
def divides : BinaryOp → Bool
  | div | mod => true
  | _ => false

end BinaryOp

end RegisterCode
