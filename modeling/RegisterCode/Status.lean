/-!
The status of a run: the class an ending belongs to. Each status has a stable
number, which is also the exit code of the command line, and a name.
-/

namespace RegisterCode

inductive Status where
  | ok
  /-- There is no function to enter. -/
  | entryError
  /-- An instruction lacks a readable operand. -/
  | opError
  /-- An operand is of the wrong kind for its instruction. -/
  | argError
  /-- A place outside the storage at hand was named. -/
  | memError
  /-- A division or remainder by zero. -/
  | mathError
  /-- The run was clean, but the entry function did not return zero. -/
  | userError
  /-- Any other ending, such as an exhausted step limit. -/
  | anyError
deriving DecidableEq, Repr, Inhabited

namespace Status

def all : List Status :=
  [ok, entryError, opError, argError, memError, mathError, userError, anyError]

def code : Status → Int32
  | ok => 0
  | entryError => 1
  | opError => 2
  | argError => 3
  | memError => 4
  | mathError => 5
  | userError => 6
  | anyError => 7

def ofCode? (code : Int32) : Option Status :=
  all.find? fun status => status.code = code

theorem ofCode?_code (status : Status) : ofCode? status.code = some status := by
  cases status <;> decide

def isOk (status : Status) : Bool := status = ok

def name : Status → String
  | ok => "ok"
  | entryError => "entry_error"
  | opError => "op_error"
  | argError => "arg_error"
  | memError => "mem_error"
  | mathError => "math_error"
  | userError => "user_error"
  | anyError => "any_error"

/-- The name followed by the number in parentheses. -/
def text (status : Status) : String :=
  s!"{status.name} ({status.code})"

end Status

end RegisterCode
