import RegisterCode.Text.Slice
import RegisterCode.Value

/-!
Statement trees. A token does not carry its text: it is a span of bytes into
the source text of its unit, and so is the extent of an expression.
-/

namespace RegisterCode

/-- The kinds of token that the compiler tells apart. -/
inductive TokenKind where
  | int
  | float
  | true
  | false
  | identifier
deriving DecidableEq, Repr

/-- The bytes from `start` up to but not including `stop`. -/
structure Span where
  start : Nat
  stop : Nat
deriving DecidableEq, Repr

namespace Span

/-- The span that starts at a place and goes on for a number of bytes. Places
are numbers of 64 bits, and the one after the last of them is the first. -/
def ofLength (start length : Nat) : Span := ⟨start, (start + length) % UInt64.size⟩

/-- The number of bytes from the start to the stop, where a span whose stop
comes first goes around the end of the places. -/
def length (span : Span) : Nat :=
  if span.start ≤ span.stop then span.stop - span.start
  else UInt64.size - span.start + span.stop

/-- The length a span was made from, when its numbers are places. -/
theorem length_ofLength {start length : Nat} (hs : start < UInt64.size)
    (hl : length < UInt64.size) : (ofLength start length).length = length := by
  unfold Span.length ofLength
  simp only [UInt64.size] at *
  split <;> omega

/-- The text of a span, empty when it names no piece of the source. -/
def text (span : Span) (source : String) : String :=
  (Text.slice? source span.start span.stop).getD ""

end Span

structure Token where
  kind : TokenKind
  span : Span
deriving DecidableEq, Repr

/-- The text of a token, empty when its span names no piece of the source. -/
def Token.lexeme (token : Token) (source : String) : String := token.span.text source

/-- The operators a unary or binary expression can carry. -/
inductive Operator where
  | access
  | negate
  | mul
  | div
  | modulo
  | add
  | sub
  | equality
  | inequality
  | lesser
  | greater
  | atMost
  | atLeast
  | assign
deriving DecidableEq, Repr

namespace Operator

/-- The operation on values that a binary use of the operator stands for. -/
def binary? : Operator → Option BinaryOp
  | mul => some .mul
  | div => some .div
  | modulo => some .mod
  | add => some .add
  | sub => some .sub
  | equality => some .equ
  | inequality => some .neq
  | lesser => some .lt
  | greater => some .gt
  | atMost => some .lte
  | atLeast => some .gte
  | access | negate | assign => none

def symbol : Operator → String
  | access => "."
  | negate => "-"
  | mul => "*"
  | div => "/"
  | modulo => "%"
  | add => "+"
  | sub => "-"
  | equality => "=="
  | inequality => "!="
  | lesser => "<"
  | greater => ">"
  | atMost => "<="
  | atLeast => ">="
  | assign => "="

end Operator

/-- Expressions, each with the span of text it covers. -/
inductive Expr where
  | literal (token : Token) (span : Span)
  | call (callee : Expr) (args : List Expr) (span : Span)
  | unary (op : Operator) (inner : Expr) (span : Span)
  | binary (op : Operator) (left right : Expr) (span : Span)
  | assign (target value : Expr) (span : Span)
deriving Repr

namespace Expr

def span : Expr → Span
  | literal _ span | call _ _ span | unary _ _ span | binary _ _ _ span | assign _ _ span => span

/-- The same expression said to cover another span. -/
def withSpan (span : Span) : Expr → Expr
  | literal token _ => literal token span
  | call callee args _ => call callee args span
  | unary op inner _ => unary op inner span
  | binary op left right _ => binary op left right span
  | assign target value _ => assign target value span

def ofToken (token : Token) : Expr := literal token token.span

/-- A call reaches from its callee to the end of its last argument. -/
def mkCall (callee : Expr) (args : List Expr) : Expr :=
  call callee args ⟨callee.span.start, (args.getLast?.getD callee).span.stop⟩

def mkUnary (op : Operator) (inner : Expr) : Expr := unary op inner inner.span

def mkBinary (op : Operator) (left right : Expr) : Expr :=
  binary op left right ⟨left.span.start, right.span.stop⟩

def mkAssign (target value : Expr) : Expr :=
  assign target value ⟨target.span.start, value.span.stop⟩

/-- The text an expression covers. -/
def text (e : Expr) (source : String) : String := e.span.text source

end Expr

inductive Stmt where
  | expr (e : Expr)
  | define (name : Token) (init : Expr)
  | ifThen (cond : Expr) (thenBody : Stmt)
  | ifElse (cond : Expr) (thenBody elseBody : Stmt)
  | ret (e : Expr)
  | block (items : List Stmt)
  | function (name : Token) (params : List Token) (body : Stmt)
  /-- An import is resolved before the tree is built and tolerated here. -/
  | imports (name : Token)
  /-- A declaration of a procedure that the machine's host provides. -/
  | stub (name : Token) (params : List Token)
deriving Repr

def Stmt.kindName : Stmt → String
  | expr _ => "expression statement"
  | define .. => "local definition"
  | ifThen .. | ifElse .. => "if"
  | ret _ => "return"
  | block _ => "block"
  | function .. => "function"
  | imports _ => "import"
  | stub .. => "native stub"

/-- A statement together with the number of the text its spans refer to. -/
structure SourceUnit where
  stmt : Stmt
  source : Nat
deriving Repr

end RegisterCode
