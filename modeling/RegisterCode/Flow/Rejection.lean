import RegisterCode.Flow.Graph
import RegisterCode.Tree.Basic

/-!
Why a statement tree has no flow graph, and the wording of each reason.
-/

namespace RegisterCode

/-- What is missing where a step needs a block to go to: a function to be compiled, or a
block in the graph of the function at hand. -/
inductive Lack where
  | function
  | block
deriving DecidableEq, Repr

inductive Rejection where
  /-- A name that is neither a procedure, nor a function, nor a local. -/
  | unknownName (name snippet : String)
  /-- An operator other than negation in front of an expression. -/
  | strayUnary (op : Operator) (snippet : String)
  /-- An operator between expressions that stands for no operation. -/
  | strayBinary (op : Operator) (snippet : String)
  /-- A statement where only declarations are allowed, or a declaration inside
  a function that belongs outside. -/
  | outsideFunction (kindName : String)
  | nestedFunction (name : String)
  /-- A procedure that is used without being called. -/
  | procedureAsValue (name : String)
  | badCallee (snippet : String)
  | badTarget (snippet : String)
  /-- A declaration of a procedure that the host does not provide. -/
  | unknownStub (name : String)
  | redefinition (name snippet : String)
  | badInt (lexeme : String)
  | badFloat (lexeme : String)
  | tooManyFunctions
  | tooManyTemps
  | tooManyConstants
  /-- A procedure whose number does not fit an address. -/
  | procedureNumber
  | tooManyArguments (snippet : String)
  /-- There is no block to go on in. -/
  | noBlock {lack : Lack}
  | noLink (source target : BlockId)
deriving DecidableEq, Repr

namespace Rejection

/-- What goes wrong in a line of its own, if there is anything to show. -/
def sourceLine (snippet : String) : String :=
  if snippet.isEmpty then "" else "\n  source: " ++ snippet

def hintLine (hint : String) : String := "\n  hint: " ++ hint

/-- A construct in the wrong place. -/
def misplaced (what name reason : String) : String :=
  s!"{what} '{name}': {reason}"

/-- A failure of the compiler's own bookkeeping. -/
def bookkeeping (what : String) : String := "internal error: " ++ what

def reason : Rejection → String
  | unknownName name snippet => s!"unknown name '{name}'" ++ sourceLine snippet
  | strayUnary op snippet =>
    s!"invalid operator '{op.symbol}'" ++ sourceLine snippet ++
      hintLine "only '-' can be used as a prefix operator"
  | strayBinary op snippet => s!"invalid operator '{op.symbol}'" ++ sourceLine snippet
  | outsideFunction kindName =>
    s!"{kindName}: only declarations may appear at the top level" ++
      hintLine "move the statement into a function body"
  | nestedFunction name =>
    misplaced "function" name "functions cannot be declared inside other functions" ++
      hintLine "declare the function at the top level"
  | procedureAsValue name => misplaced "native" name "native procedures can only be called"
  | badCallee snippet => misplaced "call" snippet "only named functions and natives can be called"
  | badTarget snippet => misplaced "assignment" snippet "the left side must name a local variable"
  | unknownStub name =>
    misplaced "native stub" name "no native procedure with this name is registered"
  | redefinition name snippet =>
    s!"invalid re-definition of local '{name}'" ++ sourceLine snippet
  | badInt lexeme => s!"bad literal '{lexeme}': not a 32-bit integer"
  | badFloat lexeme => s!"bad literal '{lexeme}': not a float"
  | tooManyFunctions => bookkeeping "too many functions"
  | tooManyTemps => bookkeeping "temporary id overflow"
  | tooManyConstants => bookkeeping "constant pool overflow"
  | procedureNumber => bookkeeping "native id overflow"
  | tooManyArguments snippet => bookkeeping s!"too many arguments in '{snippet}'"
  | @noBlock .function => bookkeeping "no function is being lowered"
  | @noBlock .block => bookkeeping "function has no basic block"
  | noLink source target => bookkeeping s!"cannot link bb{source} to bb{target}"

def message (r : Rejection) : String := "lower error: " ++ r.reason

/-- The account of all the reasons a forest was rejected for. -/
def summary (rs : Array Rejection) : String :=
  rs.foldl (fun s r => s ++ "\n" ++ r.message) s!"lowering failed with {rs.size} error(s)"

end Rejection

end RegisterCode
