import RegisterCode.Proofs.Flow.Tasks

/-!
The course of compiling: the tasks of a function are finished one after the other, each when
its parts are. What the last move of compiling an expression makes of the draft is said once
for each form (`Finish`). The other moves of a statement add no call, and write at most a new
temporary (`Move`).
-/

namespace RegisterCode

theorem getElem?_of_isPrefix {α : Type} {xs ys : List α} {i : Nat} (le : xs <+: ys)
    (lt : i < xs.length) : ys[i]? = xs[i]? := by
  rw [List.prefix_iff_getElem?.1 le i lt, List.getElem?_eq_getElem lt]

theorem filterMap_cons_eq {α β : Type} (f : α → Option β) (x : α) (xs : List α) :
    (x :: xs).filterMap f = (f x).toList ++ xs.filterMap f := by
  rw [List.filterMap_cons]
  cases f x <;> rfl

/-- A call of a function or of a procedure. -/
def Step.isCall (step : Step) : Bool := step.op.isCall

namespace Draft

variable {c : Context} {d d' d'' : Draft} {a : Address} {procedures : Nat}
  {scope scope' scope'' : List (String × Address)} {tasks tasks' : List Task}

/-! ### Moves -/

/-- The last move of compiling an expression that began with the draft `d0`, when its parts
are compiled: the value is found at `a` then. -/
inductive Finish (c : Context) : Expr → Draft → Address → Draft → Draft → Prop where
  | literal {token : Token} {span : Span} {a : Address} {d0 d' : Draft}
      (run : ofLiteral c token d0 = .ok a d') :
    Finish c (.literal token span) d0 a d0 d'
  | call {callee : Expr} {args : List Expr} {span : Span} {target : Callee} {d0 d : Draft}
      {as : List Address} (named : ofCallee c callee d0 = .ok target d0)
      (length : as.length = args.length) (small : (passedOperands as).length < numberRange)
      (limit : d.temps + (passedOperands as).length ≤ numberLimit) :
    Finish c (.call callee args span) d0 (.temp (Int16.ofNat d.temps)) d
      (d.called target (passedOperands as))
  | unary {op : Operator} {inner : Expr} {span : Span} {d0 d : Draft} {arg : Address}
      (limit : d.temps < numberLimit) :
    Finish c (.unary op inner span) d0 (.temp (Int16.ofNat d.temps)) d
      (d.computed (.unary · .neg arg))
  | binary {op : Operator} {left right : Expr} {span : Span} {d0 d : Draft} {op' : BinaryOp}
      {first second : Address} (limit : d.temps < numberLimit) :
    Finish c (.binary op left right span) d0 (.temp (Int16.ofNat d.temps)) d
      (d.computed (.binary · (.binary op') first second))
  | assign {target value : Expr} {span : Span} {a : Address} {d0 d : Draft} {arg : Address}
      (targeted : ofTarget c target d0 = .ok a d0) :
    Finish c (.assign target value span) d0 a d (d.pushed (.copy a arg))

/-- A step that is no call, and writes nothing or a new temporary. -/
def Silent (temps : Nat) (step : Step) : Prop :=
  step.isCall = false ∧
    ∀ a, step.dest? = some a → ∃ n, temps ≤ n ∧ n < numberLimit ∧ a = .temp (Int16.ofNat n)

theorem Silent.mono {temps temps' : Nat} {step : Step} (h : Silent temps' step)
    (le : temps ≤ temps') : Silent temps step :=
  ⟨h.1, fun a dest =>
    have ⟨n, new, rest⟩ := h.2 a dest
    ⟨n, Nat.le_trans le new, rest⟩⟩

/-- What a statement does to the draft beside compiling its expressions. -/
structure Move (procedures : Nat) (d d' : Draft) : Prop where
  onward : d.Onward d'
  sane : d'.Sane procedures
  globals : d'.globals = d.globals
  constants : d'.constants = d.constants
  silent : ∃ added, d'.graph.steps = d.graph.steps ++ added ∧ ∀ step ∈ added, Silent d.temps step

/-- A task is finished: its parts have taken the draft from its own to `d`, and the last move
takes it to `d'`. -/
structure Stage (procedures : Nat) (t : Task) (a : Address) (d d' : Draft) : Prop where
  sane : t.draft.Sane procedures
  beside : t.draft.Beside d
  run : ofExpr t.place t.expr t.draft = .ok a d'
  finish : Finish t.place t.expr t.draft a d d'
  gives : Gives procedures d a d'

/-- The draft went on from `d` to `d'`, and the tasks were finished on the way, one after the
other. The names of the scope became those of `scope'`. -/
inductive Course (procedures : Nat) (c : Context) : List (String × Address) → Draft →
    List Task → List (String × Address) → Draft → Prop where
  | nil {scope : List (String × Address)} {d : Draft} : Course procedures c scope d [] scope d
  | finish {scope scope' : List (String × Address)} {e : Expr} {a : Address}
      {d0 d d' d'' : Draft} {tasks : List Task} (stage : Stage procedures ⟨c, scope, e, d0⟩ a d d')
      (rest : Course procedures c scope d' tasks scope' d'') :
    Course procedures c scope d (⟨c, scope, e, d0⟩ :: tasks) scope' d''
  | move {scope added scope' : List (String × Address)} {d d' d'' : Draft} {tasks : List Task}
      (move : Move procedures d d') (bound : ∀ entry ∈ added, d'.locals[entry.1]? = some entry.2)
      (rest : Course procedures c (scope ++ added) d' tasks scope' d'') :
    Course procedures c scope d tasks scope' d''

namespace Course

theorem append (h : Course procedures c scope d tasks scope' d')
    (h' : Course procedures c scope' d' tasks' scope'' d'') :
    Course procedures c scope d (tasks ++ tasks') scope'' d'' := by
  induction h with
  | nil => exact h'
  | finish stage _ ih => exact .finish stage (ih h')
  | move move bound _ ih => exact .move move bound (ih h')

/-- A task behind those of its parts. -/
theorem close {e : Expr} {d0 : Draft} (h : Course procedures c scope d0 tasks scope d)
    (sane : d0.Sane procedures) (beside : d0.Beside d) (run : ofExpr c e d0 = .ok a d')
    (finish : Finish c e d0 a d d') (gives : Gives procedures d a d') :
    Course procedures c scope d0 (tasks ++ [⟨c, scope, e, d0⟩]) scope d' :=
  h.append (.finish ⟨sane, beside, run, finish, gives⟩ .nil)

/-- A move behind tasks. -/
theorem bind {added : List (String × Address)}
    (h : Course procedures c scope d tasks scope' d') (move : Move procedures d' d'')
    (bound : ∀ entry ∈ added, d''.locals[entry.1]? = some entry.2) :
    Course procedures c scope d tasks (scope' ++ added) d'' := by
  have rest : Course procedures c scope' d' [] (scope' ++ added) d'' := .move move bound .nil
  simpa using h.append rest

/-- A move that makes no name known. -/
theorem pass (h : Course procedures c scope d tasks scope' d') (move : Move procedures d' d'') :
    Course procedures c scope d tasks scope' d'' := by
  have rest : Course procedures c scope d tasks (scope' ++ []) d'' := h.bind move (by simp)
  simpa using rest

theorem onward (h : Course procedures c scope d tasks scope' d') : d.Onward d' := by
  induction h with
  | nil => exact .refl _
  | finish stage _ ih => exact stage.gives.beside.toOnward.trans ih
  | move move _ _ ih => exact move.onward.trans ih

/-- The course up to a task and from there on. -/
theorem split {before after : List Task} {t : Task}
    (h : Course procedures c scope d (before ++ t :: after) scope' d') :
    t.place = c ∧ ∃ d1 a d2, Course procedures c scope d before t.scope d1 ∧
      Stage procedures t a d1 d2 ∧ Course procedures c t.scope d2 after scope' d' := by
  generalize eq : before ++ t :: after = tasks at h
  induction h generalizing before with
  | nil => simp at eq
  | finish stage rest ih =>
      cases before with
      | nil =>
          cases eq
          exact ⟨rfl, _, _, _, .nil, stage, rest⟩
      | cons first before =>
          cases eq
          obtain ⟨place, d1, a, d2, earlier, here, later⟩ := ih rfl
          exact ⟨place, d1, a, d2, .finish stage earlier, here, later⟩
  | move move bound _ ih =>
      obtain ⟨place, d1, a, d2, earlier, here, later⟩ := ih eq
      exact ⟨place, d1, a, d2, .move move bound earlier, here, later⟩

/-- A task on the way from `d` to `d'` adds the step with number `k`, as the draft goes on from
`d1` to `d2`. -/
structure Adds (procedures : Nat) (c : Context) (d d' : Draft) (k : Nat) (step : Step) (t : Task)
    (d1 d2 : Draft) : Prop where
  place : t.place = c
  stage : ∃ a, Stage procedures t a d1 d2
  sane : d1.Sane procedures
  before : d.Onward d1
  after : d2.Onward d'
  late : d1.graph.steps.length ≤ k
  found : d2.graph.steps[k]? = some step

theorem Adds.widen {k : Nat} {step : Step} {t : Task} {d0 d1 d2 : Draft}
    (h : Adds procedures c d d' k step t d1 d2) (onward : d0.Onward d) :
    Adds procedures c d0 d' k step t d1 d2 :=
  { h with before := onward.trans h.before }

/-- A step of the course is added by one of the tasks, or it is silent. -/
theorem origin (h : Course procedures c scope d tasks scope' d') (sane : d.Sane procedures)
    {k : Nat} {step : Step} (late : d.graph.steps.length ≤ k)
    (found : d'.graph.steps[k]? = some step) :
    Silent d.temps step ∨ ∃ t ∈ tasks, ∃ d1 d2, Adds procedures c d d' k step t d1 d2 := by
  induction h with
  | nil =>
      rw [List.getElem?_eq_none late] at found
      cases found
  | @finish scope scope' e a d0 d d1 d' tasks stage rest ih =>
      have onward := stage.gives.beside.toOnward
      by_cases here : k < d1.graph.steps.length
      · rw [getElem?_of_isPrefix rest.onward.steps here] at found
        exact .inr ⟨_, List.mem_cons_self, d, d1,
          ⟨rfl, ⟨a, stage⟩, sane, .refl d, rest.onward, late, found⟩⟩
      · rcases ih stage.gives.sane (Nat.not_lt.1 here) found with silent |
          ⟨t, mem, d2, d3, adds⟩
        · exact .inl (silent.mono onward.temps_le)
        · exact .inr ⟨t, List.mem_cons_of_mem _ mem, d2, d3, adds.widen onward⟩
  | @move scope added scope' d d1 d' tasks move _ rest ih =>
      by_cases here : k < d1.graph.steps.length
      · obtain ⟨added, steps, silent⟩ := move.silent
        rw [getElem?_of_isPrefix rest.onward.steps here, steps,
          List.getElem?_append_right late] at found
        exact .inl (silent step (List.mem_of_getElem? found))
      · rcases ih move.sane (Nat.not_lt.1 here) found with silent | ⟨t, mem, d2, d3, adds⟩
        · exact .inl (silent.mono move.onward.temps_le)
        · exact .inr ⟨t, mem, d2, d3, adds.widen move.onward⟩

/-- What the scope says is known all along. -/
theorem bound (h : Course procedures c scope d tasks scope' d')
    (known : ∀ entry ∈ scope, d.locals[entry.1]? = some entry.2) :
    ∀ entry ∈ scope', d'.locals[entry.1]? = some entry.2 := by
  induction h with
  | nil => exact known
  | finish stage _ ih =>
      refine ih fun entry mem => ?_
      rw [stage.gives.beside.same_locals]
      exact known entry mem
  | move move bound _ ih =>
      refine ih fun entry mem => ?_
      rcases List.mem_append.1 mem with mem | mem
      · exact move.onward.locals _ _ (known entry mem)
      · exact bound entry mem

end Course

/-! ### The course of an expression -/

/-- A name that is looked up is an expression of its own. -/
theorem ofLiteral_of_lookup? {token : Token} (identifier : token.kind = .identifier)
    (free : c.procedures.contains (token.lexeme c.source) = false)
    (known : d.lookup? (token.lexeme c.source) = some a) : ofLiteral c token d = .ok a d := by
  unfold ofLiteral
  simp only [identifier, free, Bool.false_eq_true, if_false]
  rw [bind_of_ok (get_apply d), known]
  rfl

mutual

/-- An expression that is accepted finishes its tasks, its own last. -/
theorem ofExpr_course (below : c.procedures.Below procedures) (e : Expr) {d d' : Draft}
    {a : Address} (scope : List (String × Address)) (h : d.Sane procedures)
    (run : ofExpr c e d = .ok a d') :
    Course procedures c scope d (Tasks.ofExpr c scope e d) scope d' := by
  have gives := ofExpr_gives below e h run
  cases e with
  | literal token span =>
      exact .finish ⟨h, .refl d, run, .literal run, gives⟩ .nil
  | call callee args span =>
      obtain ⟨target, d1, operands, d2, named, evaluated, passed⟩ := ofExpr_call run
      obtain ⟨token, span', rfl, identifier, looked⟩ := ofCallee_ok named
      obtain rfl := (ofName_ok looked).1
      obtain ⟨sane, beside, as, all, length, usable⟩ := ofArgs_gives below args h evaluated
      have all : operands.toList = as := all
      obtain ⟨small, limit, rfl, rfl⟩ := ofCall_ok passed
      rw [all] at small limit run gives ⊢
      have before := ofArgs_course below args scope h evaluated
      rw [Tasks.ofExpr, leaves_of_ok named]
      exact before.close h beside run (.call named length small limit)
        (.passed h below looked beside sane small limit usable)
  | unary op inner span =>
      obtain ⟨-, arg, d1, first, limit, rfl, rfl⟩ := ofExpr_unary run
      obtain ⟨sane, beside, -⟩ := ofExpr_gives below inner h first
      have before := ofExpr_course below inner scope h first
      rw [Tasks.ofExpr]
      exact before.close h beside run (.unary limit)
        ⟨gives.sane, sane.beside_computed rfl rfl, gives.usable⟩
  | binary op left right span =>
      obtain ⟨first, d1, second, d2, op', one, two, -, limit, rfl, rfl⟩ := ofExpr_binary run
      obtain ⟨sane, beside, -⟩ := ofExpr_gives below left h one
      obtain ⟨sane', beside', -⟩ := ofExpr_gives below right sane two
      have before := (ofExpr_course below left scope h one).append
        (ofExpr_course below right scope sane two)
      rw [Tasks.ofExpr, leaves_of_ok one]
      exact before.close h (beside.trans beside') run (.binary limit)
        ⟨gives.sane, sane'.beside_computed rfl rfl, gives.usable⟩
  | assign target value span =>
      obtain ⟨d1, arg, d2, targeted, evaluated, rfl⟩ := ofExpr_assign run
      obtain ⟨token, span', rfl, identifier, free, known, -, rfl⟩ := ofTarget_ok targeted
      obtain ⟨sane, beside, -⟩ := ofExpr_gives below value h evaluated
      have looked := ofLiteral_of_lookup? identifier free known
      have name : Course procedures c scope d1 (Tasks.ofExpr c scope (.literal token span') d1)
          scope d1 :=
        .finish ⟨h, .refl d1, looked, .literal looked, h, .refl d1, h.usable_lookup known⟩ .nil
      have before := name.append (ofExpr_course below value scope h evaluated)
      rw [Tasks.ofExpr, leaves_of_ok targeted]
      exact before.close h beside run (.assign targeted)
        ⟨gives.sane, sane.beside_pushed rfl rfl, gives.usable⟩
termination_by sizeOf e

theorem ofArgs_course (below : c.procedures.Below procedures) (es : List Expr) {d d' : Draft}
    {read operands : Array Address} (scope : List (String × Address)) (h : d.Sane procedures)
    (run : ofArgs c es read d = .ok operands d') :
    Course procedures c scope d (Tasks.ofArgs c scope es d) scope d' := by
  cases es with
  | nil =>
      cases run
      exact .nil
  | cons e rest =>
      obtain ⟨first, d1, one, more⟩ := ofArgs_cons run
      have gives := ofExpr_gives below e h one
      rw [Tasks.ofArgs, leaves_of_ok one]
      exact (ofExpr_course below e scope h one).append
        (ofArgs_course below rest scope gives.sane more)
termination_by sizeOf es

end

/-! ### Moves between expressions -/

/-- Steps that write nothing are silent, if they are no calls. -/
theorem Move.of_steps (sane : d'.Sane procedures) (onward : d.Onward d')
    (globals : d'.globals = d.globals) (constants : d'.constants = d.constants) {added : List Step}
    (steps : d'.graph.steps = d.graph.steps ++ added)
    (plain : ∀ step ∈ added, step.isCall = false ∧ step.dest? = none) :
    Move procedures d d' := by
  refine ⟨onward, sane, globals, constants, added, steps, fun step mem => ⟨(plain step mem).1, ?_⟩⟩
  intro a dest
  rw [(plain step mem).2] at dest
  cases dest

theorem globals_landed {marker : Op} : (d.landed marker).globals = d.globals := rfl

theorem constants_landed {marker : Op} : (d.landed marker).constants = d.constants := rfl

theorem globals_turned : d.turned.globals = d.globals := by
  rw [turned, globals_landed]
  rfl

theorem constants_turned : d.turned.constants = d.constants := by
  rw [turned, constants_landed]
  rfl

theorem Move.entered (h : d.Sane procedures) (usable : d.Usable a) :
    Move procedures d (d.branched a).opened := by
  obtain ⟨sane, onward, steps, -⟩ := h.entered usable
  exact .of_steps sane onward rfl rfl steps (by simp [Step.isCall, Step.op, Op.isCall, Step.dest?])

theorem Move.joined (h : d.Sane procedures) (first : Nat) : Move procedures d (d.joined first) := by
  obtain ⟨sane, onward, steps⟩ := h.joined first
  exact .of_steps sane onward rfl rfl steps (by simp [Step.isCall, Step.op, Op.isCall, Step.dest?])

theorem Move.alternated (h : d.Sane procedures) (first : Nat) :
    Move procedures d (d.alternated first) := by
  obtain ⟨sane, onward, steps⟩ := h.alternated first
  refine .of_steps sane onward ?_ ?_ steps (by simp [Step.isCall, Step.op, Op.isCall, Step.dest?])
  · rw [Draft.alternated, globals_turned]
    rfl
  · rw [Draft.alternated, constants_turned]
    rfl

theorem Move.rejoined (h : d.Sane procedures) (first second : Nat) :
    Move procedures d (d.rejoined first second) := by
  obtain ⟨sane, onward, steps⟩ := h.rejoined first second
  exact .of_steps sane onward rfl rfl steps (by simp [Step.isCall, Step.op, Op.isCall, Step.dest?])

theorem Move.ret (h : d.Sane procedures) (usable : d.Usable a) :
    Move procedures d (d.pushed (.actOn .ret a)) :=
  .of_steps (Executes.ret h usable).sane (h.onward_pushed rfl) rfl rfl
    (Graph.steps_pushNewest h.opened)
    (by simp [Step.isCall, Step.op, Op.isCall, Step.dest?])

theorem Move.defined (h : d.Sane procedures) {name : String} (limit : d.temps < numberLimit)
    (usable : d.Usable a) (free : d.locals[name]? = none) :
    Move procedures d (d.defined name a) where
  onward := (h.defined limit usable free).2
  sane := (h.defined limit usable free).1
  globals := rfl
  constants := rfl
  silent := by
    refine ⟨[.copy (.temp (Int16.ofNat d.temps)) a], Graph.steps_pushNewest h.opened, ?_⟩
    intro step mem
    obtain rfl := List.mem_singleton.1 mem
    refine ⟨rfl, fun dest is => ⟨d.temps, Nat.le_refl _, limit, ?_⟩⟩
    exact (Option.some.inj is).symm

/-! ### The course of a statement -/

theorem forked_of_ok {cond : Expr} (h : ofExpr c cond d = .ok a d') :
    d.forked c cond = (d'.branched a).opened := by
  rw [forked, h]

theorem crossed_of_ok {cond : Expr} {thenBody : Stmt} {u : Unit}
    (h : ofExpr c cond d = .ok a d')
    (body : ofStmt c thenBody (d'.branched a).opened = .ok u d'') :
    d.crossed c cond thenBody = d''.alternated d'.graph.blocks.size := by
  rw [crossed, forked_of_ok h, leaves_of_ok body, leaves_of_ok h]

mutual

/-- A statement that is accepted finishes the tasks of its expressions, and what it defines
is known then. -/
theorem ofStmt_course (below : c.procedures.Below procedures) (s : Stmt) {d d' : Draft}
    (scope : List (String × Address)) (h : d.Sane procedures)
    (run : ofStmt c s d = .ok () d') :
    Course procedures c scope d (Tasks.ofStmt c scope s d)
      (scope ++ namesOfStmt c s d) d' := by
  cases s with
  | expr e =>
      rw [ofStmt] at run
      obtain ⟨_, d1, evaluated, run⟩ := bind_eq_ok_iff.1 run
      cases run
      rw [Tasks.ofStmt, namesOfStmt, List.append_nil]
      exact ofExpr_course below e scope h evaluated
  | define name init =>
      rw [ofStmt] at run
      obtain ⟨source, d1, evaluated, limit, free, rfl⟩ := ofDefinition_ok run
      obtain ⟨sane, -, usable⟩ := ofExpr_gives below init h evaluated
      rw [Tasks.ofStmt, namesOfStmt, leaves_of_ok evaluated]
      refine (ofExpr_course below init scope h evaluated).bind
        (.defined sane limit usable free) fun entry mem => ?_
      obtain rfl := List.mem_singleton.1 mem
      exact Std.HashMap.getElem?_insert_self
  | ifThen cond thenBody =>
      obtain ⟨source, d1, d2, evaluated, body, rfl⟩ := ofStmt_ifThen run
      obtain ⟨sane, -, usable⟩ := ofExpr_gives below cond h evaluated
      have entered := sane.entered usable
      have executes := ofStmt_executes below thenBody entered.1 body
      rw [Tasks.ofStmt, namesOfStmt, forked_of_ok evaluated]
      have first := (ofExpr_course below cond scope h evaluated).pass (.entered sane usable)
      have second := (ofStmt_course below thenBody scope entered.1 body).pass
        (.joined executes.sane d1.graph.blocks.size)
      exact first.append second
  | ifElse cond thenBody elseBody =>
      obtain ⟨source, d1, d2, d3, evaluated, body, body', rfl⟩ := ofStmt_ifElse run
      obtain ⟨sane, -, usable⟩ := ofExpr_gives below cond h evaluated
      have entered := sane.entered usable
      have executes := ofStmt_executes below thenBody entered.1 body
      have alternated := executes.sane.alternated d1.graph.blocks.size
      have executes' := ofStmt_executes below elseBody alternated.1 body'
      rw [Tasks.ofStmt, namesOfStmt, crossed_of_ok evaluated body, forked_of_ok evaluated]
      have first := (ofExpr_course below cond scope h evaluated).pass (.entered sane usable)
      have second := (ofStmt_course below thenBody scope entered.1 body).pass
        (.alternated executes.sane d1.graph.blocks.size)
      rw [← List.append_assoc]
      have third := (ofStmt_course below elseBody
        (scope ++ namesOfStmt c thenBody (d1.branched source).opened) alternated.1 body').pass
        (.rejoined executes'.sane d1.graph.blocks.size d2.graph.blocks.size)
      exact (first.append second).append third
  | ret e =>
      obtain ⟨source, d1, evaluated, rfl⟩ := ofStmt_ret run
      have gives := ofExpr_gives below e h evaluated
      rw [Tasks.ofStmt, namesOfStmt, List.append_nil]
      exact (ofExpr_course below e scope h evaluated).pass (.ret gives.sane gives.usable)
  | block items =>
      rw [ofStmt] at run
      rw [Tasks.ofStmt, namesOfStmt]
      exact ofBlock_course below items scope h run
  | function name params body =>
      rw [ofStmt] at run
      cases run
  | imports name =>
      rw [ofStmt] at run
      cases run
  | stub name params =>
      rw [ofStmt] at run
      cases run
termination_by sizeOf s

theorem ofBlock_course (below : c.procedures.Below procedures) (items : List Stmt)
    {d d' : Draft} (scope : List (String × Address)) (h : d.Sane procedures)
    (run : ofBlock c items d = .ok () d') :
    Course procedures c scope d (Tasks.ofBlock c scope items d)
      (scope ++ namesOfBlock c items d) d' := by
  cases items with
  | nil =>
      cases run
      rw [namesOfBlock, List.append_nil]
      exact .nil
  | cons s rest =>
      obtain ⟨d1, first, more⟩ := ofBlock_cons run
      have executes := ofStmt_executes below s h first
      rw [Tasks.ofBlock, namesOfBlock, leaves_of_ok first, ← List.append_assoc]
      exact (ofStmt_course below s scope h first).append
        (ofBlock_course below rest _ executes.sane more)
termination_by sizeOf items

end

end Draft

end RegisterCode
