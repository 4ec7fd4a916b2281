import RegisterCode.Proofs.Flow.Literals

/-!
The functions of a forest and what their calls lead to: there is a graph for each function, in
the order of the declarations, and each call of a function has its own step, which names a
procedure of the host or the first function that was declared under the name. Which literals,
parameters and locals have the same text is of no matter.
-/

namespace RegisterCode

/-- What a call names, and its arguments. -/
def Expr.call? : Expr → Option (Expr × List Expr)
  | .call callee args _ => some (callee, args)
  | .literal .. | .unary .. | .binary .. | .assign .. => none

/-- The calls of a statement, in the order in which they are made. -/
def Stmt.calls (s : Stmt) : List (Expr × List Expr) := s.parts.filterMap Expr.call?

/-- The steps of a graph that are calls, block after block. -/
def Graph.calls (g : Graph) : List Step := g.steps.filter Step.isCall

/-- What a name leads to that is called: the procedure that is registered under it, else the
first function that was declared under it. -/
inductive Callee.Named (procedures : Registry) (functions : List Declaration) (name : String) :
    Callee → Prop where
  | procedure {id : UInt16} (registered : procedures.id? name = some id)
      (small : id.toNat < numberRange) :
    Named procedures functions name (.procedure (Int16.ofNat id.toNat))
  | function {f : Nat} (free : procedures.id? name = none)
      (first : function? functions name = some f) (small : f < numberRange) :
    Named procedures functions name (.function (Int16.ofNat f))

/-- A step calls what an expression names. A call without arguments passes one. -/
inductive MakesCall (procedures : Registry) (functions : List Declaration) (source : String) :
    Expr × List Expr → Step → Prop where
  | intro {token : Token} {span : Span} {args : List Expr} {target : Callee}
      (identifier : token.kind = .identifier)
      (named : target.Named procedures functions (token.lexeme source)) :
    MakesCall procedures functions source (.literal token span, args)
      (Draft.callStep target (max 1 args.length))

namespace Draft

variable {c : Context} {d d' : Draft} {a : Address} {count : Nat} {registry : Registry}
  {functions : List Declaration} {seen : List (String × TokenKind)} {name : String}

theorem size_copied {as : List Address} :
    (d.copied as).graph.blocks.size = d.graph.blocks.size := by
  induction as generalizing d with
  | nil => rfl
  | cons a as ih =>
      rw [copied, ih]
      exact Graph.size_pushNewest

/-- The steps of a call: the copies of its operands and the call itself. -/
theorem steps_called (callee : Callee) (as : List Address) (opened : 0 < d.graph.blocks.size) :
    (d.called callee as).graph.steps =
      d.graph.steps ++ (copies d.temps as ++ [callStep callee as.length]) := by
  have opened' : 0 < (d.copied as).graph.blocks.size := by rwa [size_copied]
  have pushed : (d.called callee as).graph.steps =
      (d.copied as).graph.steps ++ [callStep callee as.length] := Graph.steps_pushNewest opened'
  rw [pushed, steps_copied opened, List.append_assoc]

theorem length_called (callee : Callee) (as : List Address) (opened : 0 < d.graph.blocks.size) :
    (d.called callee as).graph.steps.length = d.graph.steps.length + as.length + 1 := by
  rw [steps_called callee as opened, List.length_append, List.length_append, length_copies,
    List.length_singleton, Nat.add_assoc]

theorem isCall_callStep (callee : Callee) (n : Nat) : (callStep callee n).isCall = true := by
  cases callee <;> rfl

theorem filter_isCall_copies (temps : Nat) (as : List Address) :
    (copies temps as).filter Step.isCall = [] := by
  induction as generalizing temps with
  | nil => rfl
  | cons a as ih =>
      have copy : Step.isCall (.copy (.temp (Int16.ofNat temps)) a) = false := rfl
      rw [copies, List.filter_cons_of_neg (by simp [copy])]
      exact ih _

theorem length_passedOperands (as : List Address) :
    (passedOperands as).length = max 1 as.length := by
  cases as with
  | nil => rfl
  | cons a as => simp [passedOperands]

/-- A literal adds no step, and neither does a name. -/
theorem graph_of_ofLiteral {token : Token} (run : ofLiteral c token d = .ok a d') :
    d'.graph = d.graph := by
  rcases ofLiteral_ok run with ⟨v, -, interned⟩ | ⟨-, -, -, rfl⟩
  · rcases intern_ok interned with ⟨rfl, -⟩ | ⟨-, -, -, rfl⟩ <;> rfl
  · rfl

/-- What is looked up for a call is what its name leads to. -/
theorem Interned.named (h : d.Interned (function? functions) seen) {snippet : String}
    {target : Callee} (small : ∀ name f, function? functions name = some f → f < numberRange)
    (run : ofName c name snippet d' = .ok target d')
    (global : ∀ f, d'.lookup? name = some (.immediate f) →
      d.globals[name]? = some (.immediate f)) :
    target.Named c.procedures functions name := by
  rcases (ofName_ok run).2 with ⟨id, registered, within, rfl⟩ | ⟨free, f, looked, rfl⟩
  · exact .procedure registered within
  · have known := global f looked
    cases first : function? functions name with
    | some f' =>
        rw [h.function name f' first] at known
        cases known
        exact .function free first (small name f' first)
    | none =>
        cases found : seen.lookup name with
        | some kind =>
            obtain ⟨v, a, -, ⟨i, -, -, rfl⟩, known'⟩ := h.literal name kind first found
            rw [known] at known'
            cases known'
        | none =>
            rw [h.unknown name first found] at known
            cases known

/-- A task adds a call if it is one. -/
theorem Stage.calls {t : Task} (stage : Stage count t a d d') (sane : d.Sane count)
    (known : d.Interned (function? functions) seen)
    (small : ∀ name f, function? functions name = some f → f < numberRange) :
    ∃ added, d'.graph.steps = d.graph.steps ++ added ∧
      List.Forall₂ (MakesCall t.place.procedures functions t.place.source) t.expr.call?.toList
        (added.filter Step.isCall) := by
  have sane0 := stage.sane
  have beside := stage.beside
  obtain ⟨place, scope, e, d0⟩ := t
  cases stage.finish with
  | literal run =>
      exact ⟨[], by rw [graph_of_ofLiteral run, List.append_nil], .nil⟩
  | call named length _ _ =>
      obtain ⟨token, span, rfl, identifier, looked⟩ := ofCallee_ok named
      refine ⟨_, steps_called _ _ sane.opened, ?_⟩
      rw [List.filter_append, filter_isCall_copies, List.nil_append,
        List.filter_cons_of_pos (isCall_callStep _ _), length_passedOperands, length]
      refine .cons (.intro identifier (known.named small looked fun f found => ?_)) .nil
      obtain ⟨f', -, rfl, global⟩ := sane0.lookup_immediate found
      exact beside.globals _ _ global
  | unary limit =>
      exact ⟨_, Graph.steps_pushNewest sane.opened, .nil⟩
  | binary limit =>
      exact ⟨_, Graph.steps_pushNewest sane.opened, .nil⟩
  | assign targeted =>
      exact ⟨_, Graph.steps_pushNewest sane.opened, .nil⟩

/-- A course adds the calls among its tasks. -/
theorem Course.calls {scope scope' : List (String × Address)} {tasks : List Task}
    (h : Course count c scope d tasks scope' d') (sane : d.Sane count)
    (known : d.Interned (function? functions) seen)
    (small : ∀ name f, function? functions name = some f → f < numberRange) :
    ∃ added, d'.graph.steps = d.graph.steps ++ added ∧
      List.Forall₂ (MakesCall c.procedures functions c.source)
        (tasks.filterMap fun t => t.expr.call?) (added.filter Step.isCall) := by
  induction h generalizing seen with
  | nil => exact ⟨[], (List.append_nil _).symm, .nil⟩
  | finish stage _ ih =>
      obtain ⟨added, steps, first⟩ := stage.calls sane known small
      obtain ⟨added', steps', others⟩ := ih stage.gives.sane (known.stage stage)
      refine ⟨added ++ added', by rw [steps', steps, List.append_assoc], ?_⟩
      rw [filterMap_cons_eq, List.filter_append]
      exact List.rel_append first others
  | move move _ _ ih =>
      obtain ⟨added, steps, silent⟩ := move.silent
      obtain ⟨added', steps', calls⟩ := ih move.sane (known.quiet move.globals move.constants)
      refine ⟨added ++ added', by rw [steps', steps, List.append_assoc], ?_⟩
      have none : added.filter Step.isCall = [] :=
        List.filter_eq_nil_iff.2 fun step mem => by simp [(silent step mem).1]
      rwa [List.filter_append, none, List.nil_append]

/-- The calls of a function have their steps, in the same order. -/
theorem Written.calls {f : Declaration} {g : Graph} {tasks : List Task} {d1 d2 : Draft}
    (h : Written registry count f g tasks d d' d1 d2)
    (known : d.Interned (function? functions) seen)
    (small : ∀ name f, function? functions name = some f → f < numberRange) :
    List.Forall₂ (MakesCall registry functions f.source) f.body.calls g.calls := by
  obtain ⟨scope, course⟩ := h.course
  obtain ⟨added, steps, calls⟩ := course.calls h.sane (h.entered.interned known) small
  rw [h.entered.steps, List.nil_append] at steps
  have graph : g.steps = added := h.steps.trans steps
  have tree : f.body.calls = tasks.filterMap fun t => t.expr.call? := by
    have sites := congrArg (List.filterMap fun site : Context × Expr => site.2.call?) h.sites
    rw [List.filterMap_map, List.filterMap_map] at sites
    exact sites.symm
  rw [Graph.calls, graph, tree]
  exact calls

/-- The graph of a function has its parameters. -/
theorem Written.paramCount {f : Declaration} {g : Graph} {tasks : List Task} {d1 d2 : Draft}
    (h : Written registry count f g tasks d d' d1 d2) : g.paramCount.toNat = f.params.length := by
  have same : g.listing.params = d2.graph.listing.params := congrArg Listing.params h.listing
  have onward : d2.graph.listing.params = d1.graph.listing.params :=
    congrArg UInt16.toNat h.onward.params
  exact same.trans (onward.trans h.entered.params)

end Draft

/-- The graph of a function, with the steps of its calls. -/
structure Declaration.HasGraph (procedures : Registry) (functions : List Declaration)
    (f : Declaration) (g : Graph) : Prop where
  compiles : ∃ d d', Draft.Compiles procedures f g d d'
  paramCount : g.paramCount.toNat = f.params.length
  calls : List.Forall₂ (MakesCall procedures functions f.source) f.body.calls g.calls

theorem Draft.Passage.hasGraph {procedures : Registry} {functions fs : List Declaration}
    {gs : List Graph} {more : List (List Task)} {count : Nat} {seen : List (String × TokenKind)}
    {d d' : Draft} (h : Passage procedures count d fs gs more d')
    (known : d.Interned (function? functions) seen)
    (small : ∀ name f, function? functions name = some f → f < numberRange) :
    List.Forall₂ (Declaration.HasGraph procedures functions) fs gs := by
  induction h generalizing seen with
  | nil => exact .nil
  | cons written _ ih =>
      obtain ⟨d3, compiles, -⟩ := written.compiles
      obtain ⟨scope, course⟩ := written.course
      have next := ((written.entered.interned known).course course).quiet written.globals
        written.constants
      exact .cons ⟨⟨_, d3, compiles⟩, written.paramCount, written.calls known small⟩ (ih next)

/-- A forest that is accepted has a graph for each of its functions, in the order of their
declarations, and starts in the first one called `main`. -/
theorem callees_of_accepted {procedures : Registry} {sources : Array String}
    {forest : List SourceUnit} {b : Bundle}
    (accepted : Bundle.ofForest procedures sources forest = .ok b) :
    let functions := declarations sources forest
    List.Forall₂ (Declaration.HasGraph procedures functions) functions b.graphs.toList ∧
      b.main = mainFunction? functions := by
  intro functions
  obtain ⟨declared, main, d', passage, -⟩ := Draft.passage_of_ofForest accepted
  refine ⟨passage.hasGraph (.of_declared declared) fun name f first => ?_, ?_⟩
  · have lt := (List.findIdx?_eq_some_iff_getElem.1 first).1
    have limit := declared.limit
    rw [List.length_map] at limit
    exact Nat.lt_of_lt_of_le lt (Nat.le_trans limit (by decide))
  · rw [main, declared.main, List.findIdx?_map]
    rfl

open Sample in
theorem callees_of_sample :
    Bundle.ofForest (.ofTable Procedure.standard) #[text] forest = .ok bundle ∧
    ∃ f g, (declarations #[text] forest)[1]? = some f ∧ bundle.graphs[1]? = some g ∧
      g.calls = [.actOnTwo .call (.immediate 0) (.immediate 1),
        .actOnTwo .nativeCall (.immediate 0) (.immediate 1)] ∧
      f.HasGraph (.ofTable Procedure.standard) (declarations #[text] forest) g := by
  obtain ⟨graphs, -⟩ := callees_of_accepted accepted
  have second := (List.forall₂_iff_get.1 graphs).2 1 (by decide) (by decide)
  exact ⟨accepted, _, _, rfl, rfl, rfl, second⟩

end RegisterCode
