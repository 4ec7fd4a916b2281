import RegisterCode.Proofs.Flow.Statements

/-!
The expressions of a function in the order in which they are compiled. A task is one of them
with what compiling it begins with: the names that are known there, and the draft.
-/

namespace RegisterCode

/-! ### The expressions of a tree -/

mutual

/-- The expressions that an expression consists of, each behind its own parts. What a call
names is not one of them. -/
def Expr.parts : Expr → List Expr
  | .literal token span => [.literal token span]
  | .call callee args span => Expr.partsOf args ++ [.call callee args span]
  | .unary op inner span => inner.parts ++ [.unary op inner span]
  | .binary op left right span => left.parts ++ right.parts ++ [.binary op left right span]
  | .assign target value span => target.parts ++ value.parts ++ [.assign target value span]

def Expr.partsOf : List Expr → List Expr
  | [] => []
  | e :: rest => e.parts ++ Expr.partsOf rest

end

mutual

/-- The expressions of a statement, in the order in which they are compiled. -/
def Stmt.parts : Stmt → List Expr
  | .expr e | .define _ e | .ret e => e.parts
  | .ifThen cond thenBody => cond.parts ++ thenBody.parts
  | .ifElse cond thenBody elseBody => cond.parts ++ thenBody.parts ++ elseBody.parts
  | .block items => Stmt.partsOf items
  | .function .. | .imports _ | .stub .. => []

def Stmt.partsOf : List Stmt → List Expr
  | [] => []
  | s :: rest => s.parts ++ Stmt.partsOf rest

end

/-! ### Tasks -/

/-- An expression at its place in a function: the names that stand for parameters and for
the locals defined before, and the draft that compiling the expression begins with. -/
structure Task where
  place : Context
  scope : List (String × Address)
  expr : Expr
  draft : Draft

namespace Task

/-- The expression and what is known of the place it stands in. -/
def site (t : Task) : Context × Expr := (t.place, t.expr)

/-- Where the value of the expression is found, if it is accepted. -/
def address? (t : Task) : Option Address :=
  match Draft.ofExpr t.place t.expr t.draft with
  | .ok a _ => some a
  | .error _ _ => none

/-- The draft once the expression is compiled. -/
def after (t : Task) : Draft := leaves (Draft.ofExpr t.place t.expr) t.draft

/-- The number of the first step of the expression. -/
def start (t : Task) : Nat := t.draft.graph.steps.length

/-- The number of the step behind the last one of the expression. -/
def stop (t : Task) : Nat := t.after.graph.steps.length

variable {t : Task} {a : Address} {d : Draft}

theorem address?_of_ok (h : Draft.ofExpr t.place t.expr t.draft = .ok a d) :
    t.address? = some a := by
  rw [address?, h]

theorem after_of_ok (h : Draft.ofExpr t.place t.expr t.draft = .ok a d) : t.after = d :=
  leaves_of_ok h

theorem stop_of_ok (h : Draft.ofExpr t.place t.expr t.draft = .ok a d) :
    t.stop = d.graph.steps.length := by
  rw [stop, after_of_ok h]

end Task

namespace Draft

/-- The draft that the body behind a condition begins with. -/
def forked (c : Context) (cond : Expr) (d : Draft) : Draft :=
  match ofExpr c cond d with
  | .ok source d => (d.branched source).opened
  | .error _ d => d

/-- The draft that the second of two bodies begins with. -/
def crossed (c : Context) (cond : Expr) (thenBody : Stmt) (d : Draft) : Draft :=
  (leaves (ofStmt c thenBody) (d.forked c cond)).alternated
    (leaves (ofExpr c cond) d).graph.blocks.size

mutual

/-- The names that a statement defines, with their temporaries. -/
def namesOfStmt (c : Context) : Stmt → Draft → List (String × Address)
  | .define name init, d =>
    [(name.lexeme c.source, .temp (Int16.ofNat (leaves (ofExpr c init) d).temps))]
  | .ifThen cond thenBody, d => namesOfStmt c thenBody (d.forked c cond)
  | .ifElse cond thenBody elseBody, d =>
    namesOfStmt c thenBody (d.forked c cond) ++ namesOfStmt c elseBody (d.crossed c cond thenBody)
  | .block items, d => namesOfBlock c items d
  | .expr _, _ | .ret _, _ | .function .., _ | .imports _, _ | .stub .., _ => []

def namesOfBlock (c : Context) : List Stmt → Draft → List (String × Address)
  | [], _ => []
  | s :: rest, d => namesOfStmt c s d ++ namesOfBlock c rest (leaves (ofStmt c s) d)

end

end Draft

namespace Tasks

mutual

/-- The tasks of an expression that is compiled from a draft on: those of its parts, and then
its own. -/
def ofExpr (c : Context) (scope : List (String × Address)) : Expr → Draft → List Task
  | .literal token span, d => [⟨c, scope, .literal token span, d⟩]
  | .call callee args span, d =>
    ofArgs c scope args (leaves (Draft.ofCallee c callee) d) ++
      [⟨c, scope, .call callee args span, d⟩]
  | .unary op inner span, d => ofExpr c scope inner d ++ [⟨c, scope, .unary op inner span, d⟩]
  | .binary op left right span, d =>
    ofExpr c scope left d ++ ofExpr c scope right (leaves (Draft.ofExpr c left) d) ++
      [⟨c, scope, .binary op left right span, d⟩]
  | .assign target value span, d =>
    ofExpr c scope target d ++ ofExpr c scope value (leaves (Draft.ofTarget c target) d) ++
      [⟨c, scope, .assign target value span, d⟩]

def ofArgs (c : Context) (scope : List (String × Address)) : List Expr → Draft → List Task
  | [], _ => []
  | e :: rest, d => ofExpr c scope e d ++ ofArgs c scope rest (leaves (Draft.ofExpr c e) d)

end

mutual

/-- The tasks of a statement. What it defines is known from there on, also behind the branch
that it stands in. -/
def ofStmt (c : Context) (scope : List (String × Address)) : Stmt → Draft → List Task
  | .expr e, d | .define _ e, d | .ret e, d => ofExpr c scope e d
  | .ifThen cond thenBody, d =>
    ofExpr c scope cond d ++ ofStmt c scope thenBody (d.forked c cond)
  | .ifElse cond thenBody elseBody, d =>
    ofExpr c scope cond d ++ ofStmt c scope thenBody (d.forked c cond) ++
      ofStmt c (scope ++ Draft.namesOfStmt c thenBody (d.forked c cond)) elseBody
        (d.crossed c cond thenBody)
  | .block items, d => ofBlock c scope items d
  | .function .., _ | .imports _, _ | .stub .., _ => []

def ofBlock (c : Context) (scope : List (String × Address)) : List Stmt → Draft → List Task
  | [], _ => []
  | s :: rest, d =>
    ofStmt c scope s d ++
      ofBlock c (scope ++ Draft.namesOfStmt c s d) rest (leaves (Draft.ofStmt c s) d)

end

/-! There is a task for every expression. -/

variable {c : Context}

mutual

theorem map_site_ofExpr (e : Expr) (scope : List (String × Address)) (d : Draft) :
    (ofExpr c scope e d).map Task.site = e.parts.map fun e => (c, e) := by
  cases e with
  | literal token span => rfl
  | call callee args span =>
      rw [ofExpr, List.map_append, map_site_ofArgs args, Expr.parts, List.map_append]
      rfl
  | unary op inner span =>
      rw [ofExpr, List.map_append, map_site_ofExpr inner, Expr.parts, List.map_append]
      rfl
  | binary op left right span =>
      rw [ofExpr, List.map_append, List.map_append, map_site_ofExpr left, map_site_ofExpr right,
        Expr.parts, List.map_append, List.map_append]
      rfl
  | assign target value span =>
      rw [ofExpr, List.map_append, List.map_append, map_site_ofExpr target,
        map_site_ofExpr value, Expr.parts, List.map_append, List.map_append]
      rfl
termination_by sizeOf e

theorem map_site_ofArgs (es : List Expr) (scope : List (String × Address)) (d : Draft) :
    (ofArgs c scope es d).map Task.site = (Expr.partsOf es).map fun e => (c, e) := by
  cases es with
  | nil => rfl
  | cons e rest =>
      rw [ofArgs, List.map_append, map_site_ofExpr e, map_site_ofArgs rest, Expr.partsOf,
        List.map_append]
termination_by sizeOf es

end

mutual

theorem map_site_ofStmt (s : Stmt) (scope : List (String × Address)) (d : Draft) :
    (ofStmt c scope s d).map Task.site = s.parts.map fun e => (c, e) := by
  cases s with
  | expr e | define _ e | ret e =>
      rw [ofStmt, map_site_ofExpr e, Stmt.parts]
  | ifThen cond thenBody =>
      rw [ofStmt, List.map_append, map_site_ofExpr cond, map_site_ofStmt thenBody, Stmt.parts,
        List.map_append]
  | ifElse cond thenBody elseBody =>
      rw [ofStmt, List.map_append, List.map_append, map_site_ofExpr cond,
        map_site_ofStmt thenBody, map_site_ofStmt elseBody, Stmt.parts, List.map_append,
        List.map_append]
  | block items => rw [ofStmt, map_site_ofBlock items, Stmt.parts]
  | function | imports | stub => rfl
termination_by sizeOf s

theorem map_site_ofBlock (items : List Stmt) (scope : List (String × Address)) (d : Draft) :
    (ofBlock c scope items d).map Task.site = (Stmt.partsOf items).map fun e => (c, e) := by
  cases items with
  | nil => rfl
  | cons s rest =>
      rw [ofBlock, List.map_append, map_site_ofStmt s, map_site_ofBlock rest, Stmt.partsOf,
        List.map_append]
termination_by sizeOf items

end

end Tasks

end RegisterCode
