import RegisterCode.Decimal.Reader
import RegisterCode.Flow.Draft
import RegisterCode.Text.Integer

/-!
From statement trees to flow graphs. Every intermediate result gets a temporary
of its own. A conditional jump is emitted before its target is known, so the
steps carry markers that say when a jump is remembered and when the place it
leads to is reached.
-/

namespace RegisterCode

/-- Where a call goes once its callee is known. -/
inductive Callee where
  | function (id : Int16)
  | procedure (id : Int16)
deriving DecidableEq, Repr

def Callee.op : Callee → Op
  | function _ => .call
  | procedure _ => .nativeCall

def Callee.id : Callee → Int16
  | function id | procedure id => id

namespace Draft

/-- A literal is interned under its lexeme; an identifier stands for what it
names, and a procedure has no value. -/
def ofLiteral (c : Context) (token : Token) : Drafting Address := do
  let lexeme := token.lexeme c.source
  match token.kind with
  | .true => intern lexeme (.bool true)
  | .false => intern lexeme (.bool false)
  | .int =>
    match Text.readInt32? lexeme with
    | some n => intern lexeme (.int n)
    | none => throw (.badInt lexeme)
  | .float =>
    match Decimal.read? lexeme with
    | some x => intern lexeme (.float x)
    | none => throw (.badFloat lexeme)
  | .identifier =>
    if c.procedures.contains lexeme then throw (.procedureAsValue lexeme)
    else
      match (← get).lookup? lexeme with
      | some a => return a
      | none => throw (.unknownName lexeme lexeme)

/-- Procedures come before functions. -/
def ofName (c : Context) (name snippet : String) : Drafting Callee := do
  match c.procedures.id? name with
  | some id =>
    if id.toNat < numberRange then return .procedure (Int16.ofNat id.toNat)
    else throw .procedureNumber
  | none =>
    match (← get).lookup? name with
    | some a => if a.space = .immediate then return .function a.id else throw (.badCallee name)
    | none => throw (.unknownName name snippet)

/-- Only an identifier can be called. -/
def ofCallee (c : Context) (callee : Expr) : Drafting Callee := do
  let snippet := callee.text c.source
  match callee with
  | .literal token _ =>
    if token.kind = .identifier then ofName c (token.lexeme c.source) snippet
    else throw (.badCallee snippet)
  | _ => throw (.badCallee snippet)

/-- The temporary that an assignment writes. -/
def ofTarget (c : Context) (target : Expr) : Drafting Address := do
  let refused := Rejection.badTarget (target.text c.source)
  match target with
  | .literal token _ =>
    if token.kind = .identifier then
      let a ← ofLiteral c token
      if a.isTemp then return a else throw refused
    else throw refused
  | _ => throw refused

/-- Copies an operand into a temporary of its own. -/
def copyToTemp (source : Address) : Drafting Unit := do
  push (.copy (← newTemp) source)

/-- The call itself, after its operands are known: they are copied into
consecutive temporaries, and the result comes back in the first of these, which
is why a call without arguments takes one as well. -/
def ofCall (callee : Callee) (args : Array Address) (snippet : String) : Drafting Address := do
  let args := if args.isEmpty then #[Address.immediate 0] else args
  if numberRange ≤ args.size then throw (.tooManyArguments snippet)
  args.forM copyToTemp
  push (.actOnTwo callee.op (.immediate callee.id) (.immediate (Int16.ofNat args.size)))
  return .temp (Int16.ofNat ((← get).temps - args.size))

mutual

/-- Emits the steps of an expression and gives the address of its value. -/
def ofExpr (c : Context) : Expr → Drafting Address
  | .literal token _ => ofLiteral c token
  | .call callee args span => do
    let callee ← ofCallee c callee
    let args ← ofArgs c args #[]
    ofCall callee args (span.text c.source)
  | .unary op inner span => do
    if op ≠ .negate then throw (.strayUnary op (span.text c.source))
    let arg ← ofExpr c inner
    let dest ← newTemp
    push (.unary dest .neg arg)
    return dest
  | .binary op left right span => do
    let first ← ofExpr c left
    let second ← ofExpr c right
    match op.binary? with
    | none => throw (.strayBinary op (span.text c.source))
    | some op =>
      let dest ← newTemp
      push (.binary dest (.binary op) first second)
      return dest
  | .assign target value _ => do
    let dest ← ofTarget c target
    let arg ← ofExpr c value
    push (.copy dest arg)
    return dest

/-- The addresses of several expressions, in order. -/
def ofArgs (c : Context) : List Expr → Array Address → Drafting (Array Address)
  | [], read => return read
  | e :: rest, read => do
    let a ← ofExpr c e
    ofArgs c rest (read.push a)

end

/-- Defines a local. The initial value is computed and copied before the name
is looked at, so that it may mention what the name stood for. -/
def ofDefinition (c : Context) (name : Token) (init : Expr) : Drafting Unit := do
  let source ← ofExpr c init
  let dest ← newTemp
  push (.copy dest source)
  let lexeme := name.lexeme c.source
  if (← get).locals.contains lexeme then
    throw (.redefinition lexeme ((Text.slice? c.source name.span.start init.span.stop).getD lexeme))
  bindLocal lexeme dest

/-- Evaluates a condition and jumps ahead if it fails. Gives the number of the
block that the jump ends. -/
def openBranch (c : Context) (cond : Expr) : Drafting BlockId := do
  let source ← ofExpr c cond
  let before ← newestBlock
  push (.actOnTwo .jumpElse source (.immediate 0))
  push (.act .savePatch)
  return before

/-- Opens the block that a remembered jump leads to. -/
def land (marker : Op) : Drafting BlockId := do
  let id ← newBlock
  push (.act .nop)
  push (.act marker)
  return id

mutual

def ofStmt (c : Context) : Stmt → Drafting Unit
  | .expr e => do
    let _ ← ofExpr c e
  | .define name init => ofDefinition c name init
  | .ifThen cond thenBody => do
    let before ← openBranch c cond
    let thenId ← newBlock
    ofStmt c thenBody
    let thenEnd ← newestBlock
    linkLater before thenId
    let after ← land .patchJumpElse
    linkLater thenEnd after
    linkLater before after
  | .ifElse cond thenBody elseBody => do
    let before ← openBranch c cond
    let thenId ← newBlock
    ofStmt c thenBody
    let thenEnd ← newestBlock
    linkLater before thenId
    push (.actOn .jump (.immediate 0))
    push (.act .savePatch)
    -- The jump over the first branch gets its target before this one does.
    push (.act .shufflePatch)
    let elseId ← land .patchJumpElse
    ofStmt c elseBody
    let elseEnd ← newestBlock
    linkLater before elseId
    let after ← land .patchJump
    linkLater thenEnd after
    linkLater elseEnd after
  | .ret e => do
    let source ← ofExpr c e
    push (.actOn .ret source)
  | .block items => ofBlock c items
  | .function name _ _ => throw (.nestedFunction (name.lexeme c.source))
  | .imports name => throw (.outsideFunction (Stmt.imports name).kindName)
  | .stub name params => throw (.outsideFunction (Stmt.stub name params).kindName)

def ofBlock (c : Context) : List Stmt → Drafting Unit
  | [] => return ()
  | s :: rest => do
    ofStmt c s
    ofBlock c rest

end

/-- Gives each parameter a temporary, in order. -/
def ofParams (c : Context) (params : List Token) : Drafting Unit := do
  for param in params do
    let name := param.lexeme c.source
    let temp ← newTemp
    let known := (← get).locals.contains name
    bindLocal name temp
    if known then throw (.redefinition name name)
  modify fun d => { d with
    current := d.current.map fun g => { g with paramCount := UInt16.ofNat d.temps } }

/-- A whole function, from its parameters to its edges. -/
def ofFunction (c : Context) (params : List Token) (body : Stmt) : Drafting Unit := do
  modify Draft.enter
  ofParams c params
  ofStmt c body
  (← get).links.forM link

/-- A declaration. The function is left whether or not it was accepted. -/
def ofDeclaration (c : Context) (s : Stmt) : Drafting Unit :=
  match s with
  | .function _ params body => fun d =>
    match ofFunction c params body d with
    | .ok _ d => .ok () d.close
    | .error r d => .error r d.close
  | .imports _ => return ()
  | .stub name _ => do
    let name := name.lexeme c.source
    if c.procedures.contains name then return () else throw (.unknownStub name)
  | s => throw (.outsideFunction s.kindName)

end Draft

/-- The place of a unit's statement. A unit without a text has an empty one. -/
def SourceUnit.context (procedures : Registry) (sources : Array String) (u : SourceUnit) :
    Context :=
  ⟨procedures, sources.getD u.source ""⟩

/-- The name a unit declares a function under. -/
def SourceUnit.functionName? (c : Context) (u : SourceUnit) : Option String :=
  match u.stmt with
  | .function name _ _ => some (name.lexeme c.source)
  | _ => none

/-- The draft of a whole forest. All functions are declared before any body is
looked at, so that calls may go ahead; a rejected declaration does not keep the
others from being looked at. -/
def Draft.ofForest (procedures : Registry) (sources : Array String)
    (forest : List SourceUnit) : Draft :=
  let declared := forest.foldl (fun d u =>
    match u.functionName? (u.context procedures sources) with
    | some name => d.attempt (declare name)
    | none => d) Draft.empty
  forest.foldl (fun d u =>
    d.attempt (ofDeclaration (u.context procedures sources) u.stmt)) declared

/-- The graphs and constants of a draft, unless something was rejected. -/
def Draft.bundle? (d : Draft) : Except (Array Rejection) Bundle :=
  if d.rejections.isEmpty then .ok ⟨d.graphs, d.constants, d.main⟩ else .error d.rejections

/-- Compiles a forest of declarations to flow graphs. -/
def Bundle.ofForest (procedures : Registry) (sources : Array String)
    (forest : List SourceUnit) : Except (Array Rejection) Bundle :=
  (Draft.ofForest procedures sources forest).bundle?

end RegisterCode
