import RegisterCode.Compile
import RegisterCode.Proofs.Machine.Instructions
import Mathlib.Logic.Function.Basic

/-!
What a forest of declarations means by itself. Statements are carried out in
order and expressions are evaluated by recursion on the trees; there are no
temporaries, steps or registers. An operand that is a bare variable or an
assignment is a reference to the variable, which is read by the operation that
consumes the operand, not before.
-/

namespace RegisterCode

/-- The value of a literal of some kind, if the lexeme is one. -/
def TokenKind.value? (kind : TokenKind) (lexeme : String) : Option Value :=
  match kind with
  | .true => some (.bool Bool.true)
  | .false => some (.bool Bool.false)
  | .int => (Text.readInt32? lexeme).map .int
  | .float => (Decimal.read? lexeme).map .float
  | .identifier => none

/-- A function as its source declares it. -/
structure Declaration where
  name : String
  params : List String
  body : Stmt
  /-- The text that the body's spans refer to. -/
  source : String

/-- The function that a unit declares. -/
def SourceUnit.declaration? (sources : Array String) (u : SourceUnit) : Option Declaration :=
  let source := sources.getD u.source ""
  match u.stmt with
  | .function name params body =>
    some ⟨name.lexeme source, params.map fun param => param.lexeme source, body, source⟩
  | _ => none

/-- The functions of a forest in the order of their numbers. -/
def declarations (sources : Array String) (forest : List SourceUnit) : List Declaration :=
  forest.filterMap (SourceUnit.declaration? sources)

/-- Why an evaluation does not go on. -/
inductive Stop where
  /-- The function at hand returns. -/
  | returned (v : Value)
  | failed (fault : Fault)
  /-- A variable is read that was not set in the activation at hand, or a function
  is called with another number of arguments than it has a place for. -/
  | undefined
  /-- More calls are open than were provided for. -/
  | tooDeep
  /-- A tree that means nothing. -/
  | malformed
deriving DecidableEq

/-- The variables of an activation that are set, and the world. -/
structure Scene where
  locals : String → Option Value
  world : World

abbrev Evaluating := EStateM Stop Scene

/-- What an operand is before it is consumed. -/
inductive Reading where
  | value (v : Value)
  | named (name : String)

def Reading.get : Reading → Evaluating Value
  | value v => return v
  | named name => do
    match (← MonadState.get).locals name with
    | some v => return v
    | none => throw .undefined

def Scene.set (name : String) (v : Value) (scene : Scene) : Scene :=
  { scene with locals := Function.update scene.locals name (some v) }

/-- What an activation works with and does not change: the procedures of the host,
the functions, its own text, and what calling a function comes to. -/
structure Scope where
  table : Array Procedure
  functions : List Declaration
  source : String
  call : Nat → List Value → World → Except Stop Value × World

namespace Scope

def registry (s : Scope) : Registry := .ofTable s.table

/-- The number of the first function with a name. -/
def function? (s : Scope) (name : String) : Option Nat :=
  s.functions.findIdx? fun f => f.name = name

/-- A literal, or what an identifier stands for: the number of a function, or a
variable. -/
def literal (s : Scope) (token : Token) : Evaluating Reading :=
  let lexeme := token.lexeme s.source
  match token.kind.value? lexeme with
  | some v => return .value v
  | none =>
    if token.kind ≠ .identifier ∨ s.registry.contains lexeme then throw .malformed
    else
      match s.function? lexeme with
      | some f => return .value (.int (Int32.ofNat f))
      | none => return .named lexeme

/-- Calls a function of the forest, with as many arguments as it has a place for. -/
def callFunction (s : Scope) (f : Nat) (args : List Value) : Evaluating Value := fun scene =>
  match s.functions[f]? with
  | none => .error .malformed scene
  | some function =>
    if args.length = max 1 function.params.length then
      match s.call f args scene.world with
      | (.ok v, w) => .ok v { scene with world := w }
      | (.error stop, w) => .error stop { scene with world := w }
    else .error .undefined scene

/-- Calls a procedure of the host. -/
def callProcedure (p : Procedure) (args : List Value) : Evaluating Value := fun scene =>
  match p.perform args scene.world with
  | (.ok v, w) => .ok v { scene with world := w }
  | (.error fault, w) => .error (.failed fault) { scene with world := w }

/-- Calls what a name stands for; procedures come before functions. -/
def callName (s : Scope) (name : String) (args : List Value) : Evaluating Value :=
  match s.registry.id? name with
  | some id =>
    match s.table[id.toNat]? with
    | some p => callProcedure p args
    | none => throw .malformed
  | none =>
    match s.function? name with
    | some f => s.callFunction f args
    | none => throw .malformed

/-- The values that a call passes. One without arguments passes zero. -/
def passed (args : List Value) : List Value := if args.isEmpty then [.int 0] else args

def callExpr (s : Scope) (callee : Expr) (args : List Value) : Evaluating Value :=
  match callee with
  | .literal token _ =>
    if token.kind = .identifier then s.callName (token.lexeme s.source) (passed args)
    else throw .malformed
  | _ => throw .malformed

/-- The variable that an assignment sets. -/
def target (s : Scope) (e : Expr) : Evaluating String := do
  match e with
  | .literal token _ =>
    if token.kind = .identifier then
      match ← s.literal token with
      | .named name => return name
      | .value _ => throw .malformed
    else throw .malformed
  | _ => throw .malformed

/-- The negative of a value. -/
def negative (v : Value) : Evaluating Value :=
  if v.neg.isDud then throw (.failed .badOperands) else return v.neg

/-- What an operator makes of two values. -/
def combine (op : Operator) (x y : Value) : Evaluating Value :=
  match op.binary? with
  | some op =>
    match op.outcome x y with
    | .ok v => return v
    | .error fault => throw (.failed fault)
  | none => throw .malformed

mutual

def evaluate (s : Scope) : Expr → Evaluating Reading
  | .literal token _ => s.literal token
  | .call callee args _ => do
    let args ← (← evaluateAll s args).mapM Reading.get
    return .value (← s.callExpr callee args)
  | .unary op inner _ => do
    let v ← (← evaluate s inner).get
    if op = .negate then return .value (← negative v) else throw .malformed
  | .binary op left right _ => do
    let first ← evaluate s left
    let second ← evaluate s right
    let x ← first.get
    let y ← second.get
    return .value (← combine op x y)
  | .assign target value _ => do
    let name ← s.target target
    let v ← (← evaluate s value).get
    modify (Scene.set name v)
    return .named name

/-- Operands in order. None is read before all are known. -/
def evaluateAll (s : Scope) : List Expr → Evaluating (List Reading)
  | [] => return []
  | e :: rest => do
    let first ← evaluate s e
    return first :: (← evaluateAll s rest)

end

/-- The truth of a condition. -/
def decided (v : Value) : Evaluating Bool :=
  match v.truthy? with
  | some b => return b
  | none => throw (.failed .undecidedCondition)

mutual

/-- Carries out a statement. -/
def perform (s : Scope) : Stmt → Evaluating Unit
  | .expr e => do
    let _ ← evaluate s e
  | .define name init => do
    let v ← (← evaluate s init).get
    modify (Scene.set (name.lexeme s.source) v)
  | .ifThen cond thenBody => do
    let v ← (← evaluate s cond).get
    if ← decided v then perform s thenBody else return ()
  | .ifElse cond thenBody elseBody => do
    let v ← (← evaluate s cond).get
    if ← decided v then perform s thenBody else perform s elseBody
  | .ret e => do
    let v ← (← evaluate s e).get
    throw (.returned v)
  | .block items => performAll s items
  | .function .. | .imports _ | .stub .. => throw .malformed

def performAll (s : Scope) : List Stmt → Evaluating Unit
  | [] => return ()
  | first :: rest => do
    perform s first
    performAll s rest

end

/-- The variables of a function that is entered: its parameters. -/
def entered (params : List String) (args : List Value) (name : String) : Option Value :=
  (params.zip args).lookup name

/-- Carries out the body of a function, which has to return. -/
def run (s : Scope) (f : Declaration) (args : List Value) (w : World) :
    Except Stop Value × World :=
  match s.perform f.body ⟨entered f.params args, w⟩ with
  | .ok _ scene => (.error (.failed .endOfCode), scene.world)
  | .error (.returned v) scene => (.ok v, scene.world)
  | .error stop scene => (.error stop, scene.world)

end Scope

/-- What a function comes to when at most `depth` calls may be open at a time. -/
def evaluateCall (table : Array Procedure) (functions : List Declaration) :
    Nat → Nat → List Value → World → Except Stop Value × World
  | 0, _, _, w => (.error .tooDeep, w)
  | depth + 1, f, args, w =>
    match functions[f]? with
    | some function =>
      Scope.run ⟨table, functions, function.source, evaluateCall table functions depth⟩
        function args w
    | none => (.error .malformed, w)

/-- The number of the function to start in: the first one called `main`. -/
def mainFunction? (functions : List Declaration) : Option Nat :=
  functions.findIdx? fun f => f.name = "main"

/-- What a forest comes to. The function to start in has no arguments. -/
def evaluateForest (table : Array Procedure) (functions : List Declaration) (depth : Nat)
    (w : World) : Option (Except Stop Value × World) :=
  (mainFunction? functions).map fun f => evaluateCall table functions depth f [] w

/-! ### Lexemes and what they serve as -/

mutual

/-- The tokens of an expression. -/
def Expr.tokens : Expr → List Token
  | .literal token _ => [token]
  | .call callee args _ => callee.tokens ++ Expr.tokensOf args
  | .unary _ inner _ => inner.tokens
  | .binary _ left right _ => left.tokens ++ right.tokens
  | .assign target value _ => target.tokens ++ value.tokens

def Expr.tokensOf : List Expr → List Token
  | [] => []
  | e :: rest => e.tokens ++ Expr.tokensOf rest

end

/-- What a token that names something serves as, whatever kind it has. -/
def Token.asName (token : Token) : Token := { token with kind := .identifier }

mutual

/-- The tokens of a statement, those that stand for names among them. -/
def Stmt.tokens : Stmt → List Token
  | .expr e | .ret e => e.tokens
  | .define name init => name.asName :: init.tokens
  | .ifThen cond thenBody => cond.tokens ++ thenBody.tokens
  | .ifElse cond thenBody elseBody => cond.tokens ++ thenBody.tokens ++ elseBody.tokens
  | .block items => Stmt.tokensOf items
  | .function name params body =>
    name.asName :: params.map Token.asName ++ body.tokens
  | .imports _ | .stub .. => []

def Stmt.tokensOf : List Stmt → List Token
  | [] => []
  | s :: rest => s.tokens ++ Stmt.tokensOf rest

end

/-- The lexemes of a forest, each with what it serves as. -/
def lexemes (sources : Array String) (forest : List SourceUnit) : List (String × TokenKind) :=
  forest.flatMap fun u =>
    u.stmt.tokens.map fun token => (token.lexeme (sources.getD u.source ""), token.kind)

/-- No lexeme serves both as a literal of one kind and as a literal of another kind
or as a name. -/
def Hygienic (sources : Array String) (forest : List SourceUnit) : Prop :=
  ∀ x ∈ lexemes sources forest, ∀ y ∈ lexemes sources forest, x.1 = y.1 → x.2 = y.2

instance (sources : Array String) (forest : List SourceUnit) :
    Decidable (Hygienic sources forest) :=
  inferInstanceAs (Decidable (∀ x ∈ _, ∀ y ∈ _, _))

end RegisterCode
