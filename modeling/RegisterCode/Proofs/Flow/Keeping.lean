import RegisterCode.Proofs.Flow.Assignments
import RegisterCode.Proofs.Flow.Staying

/-!
Operands keep their values. The operands of a binary operation or of a call are compiled one after
the other, and consumed when all of them are. What is compiled behind an operand does not write its
address, with one exception: the operand is a variable, and a later operand assigns to it.
-/

namespace RegisterCode

/-- The operands that a binary operation or a call consumes. -/
def Expr.operands : Expr → List Expr
  | .call _ args _ => args
  | .binary _ left right _ => [left, right]
  | .literal .. | .unary .. | .assign .. => []

/-- A binary operation or a call. -/
def Expr.combines : Expr → Bool
  | .call .. | .binary .. => true
  | .literal .. | .unary .. | .assign .. => false

/-- The tasks of expressions that are compiled one after the other, without those of their
parts. -/
def Tasks.each (c : Context) (scope : List (String × Address)) : List Expr → Draft → List Task
  | [], _ => []
  | e :: rest, d => ⟨c, scope, e, d⟩ :: each c scope rest (leaves (Draft.ofExpr c e) d)

namespace Task

/-- The operands of a task, each with what compiling it begins with. -/
def operands (t : Task) : List Task := Tasks.each t.place t.scope t.expr.operands t.draft

/-- The last step of the task consumes what is found at the addresses: a binary operation by
itself, and a call by way of the copies in front of it. -/
inductive Consumes (steps : List Step) (t : Task) : List Address → Prop where
  | binary {op : Operator} {left right : Expr} {span : Span} {op' : BinaryOp}
      {dest first second : Address} (is : t.expr = .binary op left right span)
      (known : op.binary? = some op')
      (step : steps[t.stop - 1]? = some (.binary dest (.binary op') first second)) :
    Consumes steps t [first, second]
  | call {callee : Expr} {args : List Expr} {span : Span} {first : Nat} {target : Callee}
      {as : List Address} (is : t.expr = .call callee args span)
      (call : CallAt steps (t.stop - 1) first target (passedOperands as)) : Consumes steps t as

theorem Consumes.mono {steps steps' : List Step} {t : Task} {as : List Address}
    (h : Consumes steps t as) (le : steps <+: steps') : Consumes steps' t as := by
  cases h with
  | binary is known step =>
      rw [← getElem?_of_isPrefix le (List.getElem?_eq_some_iff.1 step).1] at step
      exact .binary is known step
  | call is call => exact .call is (call.mono le)

/-- The steps of `y` write the address of `x` if and only if `x` is a variable that `y` assigns
to. -/
def WrittenBy (steps : List Step) (x y : Task) : Prop :=
  ∀ a, x.address? = some a →
    ((∃ q step, y.start ≤ q ∧ q < y.stop ∧ steps[q]? = some step ∧ step.dest? = some a) ↔
      ∃ name, x.expr.name? x.place.source = some name ∧ name ∈ y.expr.assigned y.place.source)

/-- No operand behind operand `i` assigns to the variable that it is. -/
def Unassigned (t x : Task) (i : Nat) : Prop :=
  ∀ name, x.expr.name? x.place.source = some name →
    ∀ y ∈ t.operands.drop (i + 1), name ∉ y.expr.assigned y.place.source

end Task

namespace Draft

variable {c : Context} {d d' d'' : Draft} {a : Address} {count : Nat}
  {scope : List (String × Address)} {xs : List Task} {as : List Address}

/-- Expressions are compiled one after the other, and their values are found at the addresses. -/
inductive Series (count : Nat) (c : Context) (scope : List (String × Address)) :
    Draft → List Task → List Address → Draft → Prop where
  | nil {d : Draft} : Series count c scope d [] [] d
  | cons {e : Expr} {a : Address} {d d' d'' : Draft} {xs : List Task} {as : List Address}
      (sane : d.Sane count) (run : ofExpr c e d = .ok a d')
      (rest : Series count c scope d' xs as d'') :
    Series count c scope d (⟨c, scope, e, d⟩ :: xs) (a :: as) d''

theorem series_of_ofArgs (below : c.procedures.Below count) (es : List Expr)
    (scope : List (String × Address)) {read operands : Array Address} (h : d.Sane count)
    (run : ofArgs c es read d = .ok operands d') :
    ∃ as, operands.toList = read.toList ++ as ∧
      Series count c scope d (Tasks.each c scope es d) as d' := by
  induction es generalizing d read with
  | nil =>
      cases run
      exact ⟨[], (List.append_nil _).symm, .nil⟩
  | cons e rest ih =>
      obtain ⟨first, d1, one, more⟩ := ofArgs_cons run
      obtain ⟨as, all, series⟩ := ih (ofExpr_gives below e h one).sane more
      refine ⟨first :: as, ?_, ?_⟩
      · rw [all, Array.toList_push, List.append_assoc]
        rfl
      · rw [Tasks.each, leaves_of_ok one]
        exact .cons h one series

namespace Series

theorem addresses (h : Series count c scope d xs as d') :
    xs.map Task.address? = as.map some := by
  induction h with
  | nil => rfl
  | cons _ run _ ih =>
      rw [List.map_cons, List.map_cons, ih, Task.address?_of_ok run]

theorem beside (below : c.procedures.Below count) (h : Series count c scope d xs as d') :
    d.Beside d' := by
  induction h with
  | nil => exact .refl _
  | cons sane run _ ih => exact (ofExpr_gives below _ sane run).beside.trans ih

theorem sane (below : c.procedures.Below count) (start : d.Sane count)
    (h : Series count c scope d xs as d') : d'.Sane count := by
  induction h with
  | nil => exact start
  | cons sane run _ ih => exact ih (ofExpr_gives below _ sane run).sane

/-- The course of compiling them. -/
theorem course (below : c.procedures.Below count) (h : Series count c scope d xs as d') :
    Course count c scope d (xs.flatMap fun x => Tasks.ofExpr c scope x.expr x.draft) scope d' := by
  induction h with
  | nil => exact .nil
  | cons sane run _ ih => exact (ofExpr_course below _ scope sane run).append ih

/-- One of the expressions, and those behind it. -/
theorem split (below : c.procedures.Below count) (h : Series count c scope d xs as d') {i : Nat}
    {x : Task} (at_ : xs[i]? = some x) :
    ∃ e a d1 d2, x = ⟨c, scope, e, d1⟩ ∧ as[i]? = some a ∧ d.Beside d1 ∧ d1.Sane count ∧
      ofExpr c e d1 = .ok a d2 ∧
      Series count c scope d2 (xs.drop (i + 1)) (as.drop (i + 1)) d' := by
  induction h generalizing i with
  | nil => simp at at_
  | cons sane run rest ih =>
      cases i with
      | zero =>
          cases at_
          exact ⟨_, _, _, _, rfl, rfl, .refl _, sane, run, rest⟩
      | succ i =>
          obtain ⟨e, a, d1, d2, is, here, beside, sane1, run1, rest1⟩ := ih at_
          exact ⟨e, a, d1, d2, is, here, (ofExpr_gives below _ sane run).beside.trans beside,
            sane1, run1, rest1⟩

end Series

/-! ### What is written behind an operand -/

/-- The names that are assigned to on the way. -/
theorem mem_assigned {name : String} :
    name ∈ (xs.flatMap fun x => Tasks.ofExpr c scope x.expr x.draft).filterMap
      (fun t => t.expr.assigned? c.source) ↔
    ∃ x ∈ xs, name ∈ x.expr.assigned c.source := by
  have each (e : Expr) (d : Draft) : (Tasks.ofExpr c scope e d).filterMap
      (fun t => t.expr.assigned? c.source) = e.assigned c.source := by
    have sites := congrArg (List.filterMap fun site : Context × Expr => site.2.assigned? c.source)
      (Tasks.map_site_ofExpr (c := c) e scope d)
    rwa [List.filterMap_map, List.filterMap_map] at sites
  rw [List.filterMap_flatMap, List.mem_flatMap]
  simp only [each]

/-- The address of an expression is written behind it if and only if it is a variable that is
assigned to there. -/
theorem Series.writes_iff (below : c.procedures.Below count) {e : Expr} {d0 : Draft}
    (h0 : d0.Sane count) (run : ofExpr c e d0 = .ok a d) (beside : d.Beside d')
    (sane : d'.Sane count) (h : Series count c scope d' xs as d'') :
    (∃ q step, d'.graph.steps.length ≤ q ∧ d''.graph.steps[q]? = some step ∧
      step.dest? = some a) ↔
    ∃ name, e.name? c.source = some name ∧ ∃ y ∈ xs, name ∈ y.expr.assigned c.source := by
  have gives := ofExpr_gives below e h0 run
  constructor
  · rintro ⟨q, step, late, found, dest⟩
    rcases (h.course below).writes sane late found dest with ⟨n, le, limit, rfl⟩ |
      ⟨name, assigned, known⟩
    · exact absurd rfl (gives.ne_new (Nat.le_trans beside.temps_le le) limit)
    · rw [(h.beside below).same_locals, beside.same_locals, gives.beside.same_locals] at known
      exact ⟨name, name?_of_local below h0 run known, mem_assigned.1 assigned⟩
  · rintro ⟨name, named, y, mem, assigned⟩
    obtain ⟨i, at_⟩ := List.mem_iff_getElem?.1 mem
    obtain ⟨e', a', d1, d2, rfl, -, before, sane1, run1, rest⟩ := h.split below at_
    have assigns := (ofExpr_assigns below e' sane1 run1 assigned).widen before (rest.beside below)
    obtain ⟨x, known, q, step, late, found, dest⟩ := assigns.writes
    have here := local_of_name? h0 run named (beside.unknown assigns.free)
    rw [beside.same_locals, gives.beside.same_locals, here] at known
    cases known
    exact ⟨q, step, late, found, dest⟩

/-! ### Whole operations -/

/-- The operands of a task are compiled one after the other, and consumed then. -/
structure Combined (count : Nat) (t : Task) (as : List Address) (d d' : Draft) : Prop where
  series : Series count t.place t.scope t.draft t.operands as d
  sane : t.draft.Sane count
  passing : ∃ added last, d'.graph.steps = d.graph.steps ++ added ++ [last] ∧
    ∀ step ∈ added, Silent d.temps step
  consumes : t.Consumes d'.graph.steps as

theorem combined_of_ok {t : Task} (below : t.place.procedures.Below count)
    (h : t.draft.Sane count) (run : ofExpr t.place t.expr t.draft = .ok a d')
    (combines : t.expr.combines = true) : ∃ as d, Combined count t as d d' := by
  have stop := Task.stop_of_ok run
  obtain ⟨c, scope, e, d0⟩ := t
  cases e with
  | call callee args span =>
      obtain ⟨target, d1, operands, d2, named, evaluated, passed⟩ := ofExpr_call run
      obtain ⟨token, _, -, -, looked⟩ := ofCallee_ok named
      obtain rfl := (ofName_ok looked).1
      obtain ⟨as, all, series⟩ := series_of_ofArgs below args scope h evaluated
      have all : operands.toList = as := all
      obtain ⟨small, limit, rfl, rfl⟩ := ofCall_ok passed
      rw [all] at small limit stop ⊢
      have opened := (series.sane below h).opened
      have steps := steps_called target (passedOperands as) opened
      rw [length_called target (passedOperands as) opened] at stop
      have callAt := callAt_called target opened (passedOperands_ne_nil as) small limit
      rw [← Nat.add_sub_cancel (n := d2.graph.steps.length + (passedOperands as).length) (m := 1),
        ← stop] at callAt
      rw [← List.append_assoc] at steps
      exact ⟨as, d2, series, h, ⟨_, _, steps, fun _ mem => silent_of_mem_copies limit mem⟩,
        .call rfl callAt⟩
  | binary op left right span =>
      obtain ⟨first, d1, second, d2, op', one, two, known, limit, rfl, rfl⟩ := ofExpr_binary run
      have gives := ofExpr_gives below left h one
      have series : Series count c scope d0
          (Task.operands ⟨c, scope, .binary op left right span, d0⟩) [first, second] d2 := by
        rw [Task.operands, Expr.operands, Tasks.each, leaves_of_ok one]
        exact .cons h one (.cons gives.sane two .nil)
      have steps : (d2.computed (.binary · (.binary op') first second)).graph.steps =
          d2.graph.steps ++ [.binary (.temp (Int16.ofNat d2.temps)) (.binary op') first second] :=
        Graph.steps_pushNewest (series.sane below h).opened
      rw [steps, List.length_append, List.length_singleton] at stop
      have last : (d2.computed (.binary · (.binary op') first second)).graph.steps[
          Task.stop ⟨c, scope, .binary op left right span, d0⟩ - 1]? =
            some (.binary (.temp (Int16.ofNat d2.temps)) (.binary op') first second) := by
        rw [stop, Nat.add_sub_cancel, steps, List.getElem?_concat_length]
      rw [← List.append_nil d2.graph.steps] at steps
      exact ⟨[first, second], d2, series, h,
        ⟨_, _, steps, fun _ mem => absurd mem List.not_mem_nil⟩, .binary rfl known last⟩
  | literal => cases combines
  | unary => cases combines
  | assign => cases combines

/-- Which operands are written behind them. -/
theorem Series.written (below : c.procedures.Below count) (h : Series count c scope d xs as d')
    {steps : List Step} (le : d'.graph.steps <+: steps) :
    xs.Pairwise (Task.WrittenBy steps) := by
  induction h with
  | nil => exact .nil
  | @cons e a d d1 d' xs as sane run rest ih =>
      refine .cons (fun y mem => ?_) (ih le)
      obtain ⟨i, at_⟩ := List.mem_iff_getElem?.1 mem
      obtain ⟨e', a', d2, d3, rfl, -, before, sane2, run2, rest2⟩ := rest.split below at_
      have after := (rest2.beside below).steps.trans le
      have single : Series count c scope d2 [⟨c, scope, e', d2⟩] [a'] d3 := .cons sane2 run2 .nil
      have iff := single.writes_iff below sane run before sane2
      intro x address
      rw [Task.address?_of_ok run] at address
      cases address
      rw [Task.start, Task.stop_of_ok run2]
      simp only [List.mem_singleton, exists_eq_left] at iff
      rw [← iff]
      constructor
      · rintro ⟨q, step, late, lt, found, dest⟩
        rw [getElem?_of_isPrefix after lt] at found
        exact ⟨q, step, late, found, dest⟩
      · rintro ⟨q, step, late, found, dest⟩
        have lt := (List.getElem?_eq_some_iff.1 found).1
        refine ⟨q, step, late, lt, ?_, dest⟩
        rwa [getElem?_of_isPrefix after lt]

theorem isCall_of_window? {step : Step} {n : Nat} (window : step.window? = some n) :
    step.isCall = true := by
  unfold Step.window? at window
  split at window
  · split at window
    · rename_i isCall
      exact isCall
    · cases window
  · cases window

/-- From behind an operand up to the last step of the operation its address is left alone, unless
it is a variable that is assigned to. -/
theorem Combined.spares {t x : Task} {d d' : Draft} (below : t.place.procedures.Below count)
    (h : Combined count t as d d') {i : Nat} (at_ : t.operands[i]? = some x)
    (here : as[i]? = some a) (unassigned : t.Unassigned x i) {l : Listing}
    (le : d'.graph.steps <+: l.steps) : l.Spares x.stop (d'.graph.steps.length - 1) a := by
  obtain ⟨e, a', d1, d2, rfl, here', -, sane1, run, rest⟩ := h.series.split below at_
  rw [here] at here'
  cases here'
  have gives := ofExpr_gives below e sane1 run
  obtain ⟨added, last, steps, silent⟩ := h.passing
  have sane := h.series.sane below h.sane
  have beside := rest.beside below
  rw [Task.stop_of_ok run]
  -- A step of the stretch is one of a later operand, or passes an operand.
  have origin {q : Nat} {step : Step} (high : q < d'.graph.steps.length - 1)
      (found : l.steps[q]? = some step) :
      d.graph.steps[q]? = some step ∨ Silent d.temps step := by
    rw [getElem?_of_isPrefix le (by omega)] at found
    rw [steps, List.length_append, List.length_singleton, Nat.add_sub_cancel] at high
    rw [steps, List.getElem?_append_left high, List.getElem?_append] at found
    split at found
    · exact .inl found
    · exact .inr (silent step (List.mem_of_getElem? found))
  refine ⟨fun q high low step found dest => ?_, fun q high low step n found window => ?_⟩
  · rcases origin high found with earlier | passes
    · obtain ⟨name, named, y, mem, assigned⟩ := (rest.writes_iff below sane1 run (.refl d2)
        gives.sane).1 ⟨q, step, low, earlier, dest⟩
      obtain ⟨j, there⟩ := List.mem_iff_getElem?.1 mem
      obtain ⟨_, _, _, _, rfl, -⟩ := rest.split below there
      exact unassigned name named _ mem assigned
    · -- A temporary that an operand is passed in is new.
      obtain ⟨n, new, limit, rfl⟩ := passes.2 a dest
      exact absurd rfl (gives.ne_new (Nat.le_trans beside.temps_le new) limit)
  · have isCall := isCall_of_window? window
    rcases origin high found with earlier | passes
    · obtain ⟨y, -, first, target, args, call⟩ :=
        (rest.course below).callTask gives.sane low earlier isCall
      have same := call.callAt.call.symm.trans earlier
      cases same
      rw [window?_callStep call.callAt.small] at window
      cases window
      have start := call.start_le
      have inside := call.callAt.le
      omega
    · rw [passes.1] at isCall
      cases isCall

end Draft

/-- What becomes of the operands of a task, whose steps are among those of a function. -/
structure Task.Operates (b : Bundle) (f : Nat) (g : Graph) (t : Task) (as : List Address) :
    Prop where
  addresses : t.operands.map Task.address? = as.map some
  consumes : t.Consumes g.steps as
  written : t.operands.Pairwise (Task.WrittenBy g.steps)
  /-- An operand has its value until it is consumed. -/
  kept : ∀ (i : Nat) (x : Task) (a : Address), t.operands[i]? = some x → as[i]? = some a →
    t.Unassigned x i → ∀ (table : Array Procedure) (j k : Journey), j.visit.func = f →
    j.visit.pos = x.stop → j.Stays (b.chart table) k → k.waiting.length = j.waiting.length →
    k.visit.pos < t.stop →
    (b.chart table).value? k.visit.temps a = (b.chart table).value? j.visit.temps a

theorem Draft.Written.operates {b : Bundle} {count f pool functions : Nat} {registry : Registry}
    {function : Declaration} {g : Graph} {tasks : List Task} {d d' d1 d2 : Draft}
    (h : Written registry count function g tasks d d' d1 d2) (below : registry.Below count)
    (at_ : b.graphs[f]? = some g) (orderly : g.listing.Orderly pool functions count) {t : Task}
    (mem : t ∈ tasks) (combines : t.expr.combines = true) : ∃ as, t.Operates b f g as := by
  obtain ⟨scope, course⟩ := h.course
  obtain ⟨before, after, rfl⟩ := List.append_of_mem mem
  obtain ⟨place, d3, a, d4, -, stage, later⟩ := course.split
  have below : t.place.procedures.Below count := place ▸ below
  have le : d4.graph.steps <+: g.steps := h.steps ▸ later.onward.steps
  obtain ⟨as, d5, combined⟩ := combined_of_ok below stage.sane stage.run combines
  refine ⟨as, combined.series.addresses, combined.consumes.mono le, ?_, ?_⟩
  · obtain ⟨added, last, same, -⟩ := combined.passing
    have more : d5.graph.steps <+: d4.graph.steps := by
      rw [same, List.append_assoc]
      exact List.prefix_append _ _
    exact combined.series.written below (more.trans le)
  · intro i x a' operand here unassigned table j k func pos stays back within
    have spares : g.listing.Spares x.stop (d4.graph.steps.length - 1) a' :=
      combined.spares below operand here unassigned le
    have known : (b.chart table).listings[j.visit.func]? = some g.listing := by
      rw [func, Bundle.chart, List.getElem?_map, Array.getElem?_toList, at_]
      rfl
    rw [Task.stop_of_ok stage.run] at within
    rw [← pos] at spares
    exact stays.value known orderly spares back (Nat.le_sub_one_of_lt within)

/-- In a forest that is accepted, the operands of binary operations and of calls keep their values
until they are consumed, apart from variables that a later operand assigns to. -/
theorem operands_of_accepted {procedures : Registry} {sources : Array String}
    {forest : List SourceUnit} {b : Bundle}
    (accepted : Bundle.ofForest procedures sources forest = .ok b) {f : Nat} {g : Graph}
    (at_ : b.graphs[f]? = some g) :
    ∃ function tasks, (declarations sources forest)[f]? = some function ∧
      (Tasks.ofForest procedures sources forest)[f]? = some tasks ∧
      tasks.map Task.site = function.body.parts.map (fun e => (⟨procedures, function.source⟩, e)) ∧
      ∀ t ∈ tasks, t.expr.combines = true → ∃ as, t.Operates b f g as := by
  have below : procedures.Below 65536 := fun _ id _ => id.toNat_lt
  have orderly := (Draft.orderly_of_ofForest below accepted).orderly g (Array.mem_of_getElem? at_)
  obtain ⟨function, tasks, d1, d2, d3, d4, declared, known, written⟩ :=
    Draft.written_of_ofForest accepted at_
  exact ⟨function, tasks, declared, known, written.sites, fun t mem combines =>
    written.operates below at_ orderly mem combines⟩

open Sample in
theorem operands_of_sample :
    Bundle.ofForest (.ofTable Procedure.standard) #[text] forest = .ok bundle ∧
    ∃ (g : Graph) (t : Task) (as : List Address), bundle.graphs[0]? = some g ∧
      t.expr = .mkBinary .add (atom .identifier 6 7) (atom .identifier 6 7) ∧
      t.Operates bundle 0 g as := by
  obtain ⟨function, tasks, declared, -, sites, each⟩ :=
    operands_of_accepted accepted (f := 0) (g := bundle.graphs[0]) rfl
  cases declared
  have third := congrArg (fun sites => sites[2]?) sites
  rw [List.getElem?_map] at third
  obtain ⟨t, found, site⟩ := Option.map_eq_some_iff.1 third
  have expr : t.expr = .mkBinary .add (atom .identifier 6 7) (atom .identifier 6 7) :=
    congrArg Prod.snd site
  obtain ⟨as, operates⟩ := each t (List.mem_of_getElem? found) (by rw [expr]; rfl)
  exact ⟨accepted, _, t, as, rfl, expr, operates⟩

/-! ### A variable that changes -/

namespace Changing

open Sample

def text : String := "main x 1 2"

/-- `main()` defines `x` as 1 and returns `x + (x = 2)`. -/
def main : Stmt :=
  .function (token .identifier 0 4) [] (.block [
    .define (token .identifier 5 6) (atom .int 7 8),
    .ret (.mkBinary .add (atom .identifier 5 6)
      (.mkAssign (atom .identifier 5 6) (atom .int 9 10)))])

def forest : List SourceUnit := [⟨main, 0⟩]

def bundle : Bundle where
  graphs := #[⟨#[⟨#[.copy (.temp 0) (.constant 0), .copy (.temp 0) (.constant 1),
    .binary (.temp 1) (.binary .add) (.temp 0) (.temp 0), .actOn .ret (.temp 1)], none, none⟩], 0⟩]
  constants := #[.int 1, .int 2]
  main := some 0

theorem slices : Text.slice? text 0 4 = some "main" ∧ Text.slice? text 5 6 = some "x" ∧
    Text.slice? text 7 8 = some "1" ∧ Text.slice? text 9 10 = some "2" := by decide

theorem numbers : Text.readInt32? "1" = some 1 ∧ Text.readInt32? "2" = some 2 := by decide

theorem procedures : (Registry.ofTable Procedure.standard).id? "x" = none :=
  Registry.id?_eq_none (by decide +kernel)

open Draft in
theorem accepted : Bundle.ofForest (.ofTable Procedure.standard) #[text] forest = .ok bundle := by
  simp [Bundle.ofForest, Draft.ofForest, forest, main, SourceUnit.functionName?,
    SourceUnit.context, token, atom, Token.lexeme, Span.text, slices, numbers, procedures,
    Registry.contains, attempt, declare, Draft.empty, numberLimit, numberRange,
    ofDeclaration_function, ofFunction, ofParams_eq, newTemp, bindLocal, enter, close,
    Draft.graph, bundle?, bind_apply, ofStmt, ofBlock, ofExpr, ofLiteral, ofDefinition, ofTarget,
    intern, lookup?, push, Expr.mkBinary, Expr.mkAssign, Expr.ofToken, Expr.span, Expr.text,
    Operator.binary?, Graph.empty, Graph.addBlock, Graph.pushNewest, Graph.push, Block.push,
    Block.empty, bundle, Step.copy, Address.immediate, Address.temp, Address.constant,
    Address.isTemp]

open Draft in
/-- The operands of the tasks, with their addresses and their steps. -/
theorem operands : (Tasks.ofForest (.ofTable Procedure.standard) #[text] forest).flatten.map
    (fun t => (t.expr.combines, t.stop, t.operands.map fun x => (x.address?, x.start, x.stop))) =
      [(false, 0, []), (false, 1, []), (false, 1, []), (false, 1, []), (false, 2, []),
        (true, 3, [(some (.temp 0), 1, 1), (some (.temp 0), 1, 2)])] := by
  simp [-bind_pure_comp, Tasks.ofForest, Tasks.ofUnits, Tasks.ofStmt, Tasks.ofBlock, Tasks.ofExpr,
    Tasks.ofParams, Tasks.each, Task.operands, Expr.operands, Expr.combines, Task.address?,
    Task.start, Task.stop, Task.after, Graph.steps, declaredIn, declareUnit,
    SourceUnit.declaration?, SourceUnit.context, leaves, forest, main, token, atom, Token.lexeme,
    Span.text, slices, numbers, procedures, Registry.contains, attempt, declare, Draft.empty,
    numberLimit, numberRange, ofParams_eq, newTemp, bindLocal, enter, Draft.graph, bind_apply,
    ofStmt, ofExpr, ofLiteral, ofDefinition, ofTarget, intern, lookup?, Draft.push, Expr.mkBinary,
    Expr.mkAssign, Expr.ofToken, Expr.span, Expr.text, Operator.binary?, Graph.empty,
    Graph.addBlock, Graph.pushNewest, Graph.push, Block.push, Block.empty, Step.copy,
    Address.immediate, Address.temp, Address.constant, Address.isTemp]

end Changing

/-- An operand can change before it is consumed: in `x + (x = 2)`, the assignment writes the
temporary of `x`, which is read behind it. -/
theorem operands_change :
    let procedures := Registry.ofTable Procedure.standard
    let tasks := (Tasks.ofForest procedures #[Changing.text] Changing.forest).flatten
    let chart := Changing.bundle.chart Procedure.standard
    Bundle.ofForest procedures #[Changing.text] Changing.forest = .ok Changing.bundle ∧
    ∃ g, Changing.bundle.graphs[0]? = some g ∧
    (¬ ∀ t ∈ tasks, t.expr.combines = true → t.operands.Pairwise fun x y =>
      ∀ a, x.address? = some a → ∀ q step, y.start ≤ q → q < y.stop →
        g.steps[q]? = some step → step.dest? ≠ some a) ∧
    ¬ ∀ t ∈ tasks, t.expr.combines = true → ∀ x ∈ t.operands, ∀ a, x.address? = some a →
      ∀ j k : Journey, j.visit.func = 0 → j.visit.pos = x.stop → j.Stays chart k →
        k.waiting.length = j.waiting.length → k.visit.pos < t.stop →
        chart.value? k.visit.temps a = chart.value? j.visit.temps a := by
  intro procedures tasks chart
  have operands := Changing.operands
  have last := congrArg (fun rows => rows[5]?) operands
  rw [List.getElem?_map] at last
  obtain ⟨t, found, is⟩ := Option.map_eq_some_iff.1 last
  obtain ⟨combines, stop, parts⟩ : t.expr.combines = true ∧ t.stop = 3 ∧
      t.operands.map (fun x => (x.address?, x.start, x.stop)) =
        [(some (.temp 0), 1, 1), (some (.temp 0), 1, 2)] := by
    simpa only [Prod.mk.injEq] using is
  have mem : t ∈ tasks := List.mem_of_getElem? found
  obtain ⟨x, rest, split, first, others⟩ := List.map_eq_cons_iff.1 parts
  obtain ⟨y, rest, rfl, second, others⟩ := List.map_eq_cons_iff.1 others
  cases List.map_eq_nil_iff.1 others
  obtain ⟨address, -, stop1⟩ : x.address? = some (.temp 0) ∧ x.start = 1 ∧ x.stop = 1 := by
    simpa only [Prod.mk.injEq] using first
  obtain ⟨-, start2, stop2⟩ : y.address? = some (.temp 0) ∧ y.start = 1 ∧ y.stop = 2 := by
    simpa only [Prod.mk.injEq] using second
  refine ⟨Changing.accepted, _, rfl, fun claim => ?_, fun claim => ?_⟩
  · have apart := claim t mem combines
    rw [split] at apart
    have unwritten := List.rel_of_pairwise_cons apart List.mem_cons_self
    exact unwritten _ address 1 _ (Nat.le_of_eq start2) (by omega) rfl rfl
  · let visit : Visit := ⟨0, 1, fun t => if t = 0 then some (.int 1) else none⟩
    let j : Journey := ⟨visit, [], ⟨.empty, [], ""⟩⟩
    let k : Journey := j.withVisit (visit.set 0 (.int 2)).move
    have step : j.step chart = .on k := rfl
    have kept := claim t mem combines x (by rw [split]; exact List.mem_cons_self) _ address j k rfl
      stop1.symm (.single ⟨step, Nat.le_refl _⟩) rfl (by rw [stop]; decide)
    have one : chart.value? j.visit.temps (.temp 0) = some (.int 1) := rfl
    have two : chart.value? k.visit.temps (.temp 0) = some (.int 2) := rfl
    rw [one, two] at kept
    cases kept

end RegisterCode
