import RegisterCode.Proofs.Flow.CallSites

/-!
Which temporaries compiling an expression writes: new ones, and those of the variables that are
assigned to in it. The value of an expression is found at the temporary of a variable if and only
if it is that variable, or an assignment to it.
-/

namespace RegisterCode

/-! ### Variables of a tree -/

namespace Expr

/-- The name that an expression is, or that it assigns to. -/
def name? (source : String) : Expr → Option String
  | .literal token _ => if token.kind = .identifier then some (token.lexeme source) else none
  | .assign target _ _ => target.name? source
  | .call .. | .unary .. | .binary .. => none

/-- The name that an expression assigns to. -/
def assigned? (source : String) : Expr → Option String
  | .assign target _ _ => target.name? source
  | .literal .. | .call .. | .unary .. | .binary .. => none

/-- The names that are assigned to somewhere in an expression. -/
def assigned (source : String) (e : Expr) : List String := e.parts.filterMap (assigned? source)

end Expr

namespace Draft

variable {c : Context} {d d' d'' : Draft} {a : Address} {count : Nat} {name : String}

/-! ### Where the value of a variable is found -/

/-- A temporary that is new has no name. -/
theorem Sane.unnamed (h : d.Sane count) {n : Nat} (le : d.temps ≤ n) (limit : n < numberLimit) :
    d.locals[name]? ≠ some (.temp (Int16.ofNat n)) := by
  intro known
  have below := (h.growing.owned _ ⟨name, known⟩).1
  rw [numberOf_ofNat limit] at below
  omega

/-- No value is found at a temporary that is new. -/
theorem Gives.ne_new (h : Gives count d a d') {n : Nat} (le : d'.temps ≤ n)
    (limit : n < numberLimit) : a ≠ .temp (Int16.ofNat n) := by
  intro new
  have below := h.sane.growing.number_lt_of_known (h.usable.ready _ new).1
  rw [numberOf_ofNat limit] at below
  omega

/-- A name that is not known everywhere later was not known before. -/
theorem Beside.unknown (h : d.Beside d') (unknown : d'.globals[name]? = none) :
    d.globals[name]? = none := by
  cases there : d.globals[name]? with
  | none => rfl
  | some b =>
      rw [h.globals name b there] at unknown
      cases unknown

/-- An expression whose value is found at the temporary of a variable is the variable, or assigns
to it. -/
theorem name?_of_local (below : c.procedures.Below count) (h : d.Sane count) {e : Expr}
    (run : ofExpr c e d = .ok a d') (known : d.locals[name]? = some a) :
    e.name? c.source = some name := by
  have temp := h.locals name a known
  cases e with
  | literal token span =>
      rw [ofExpr] at run
      rcases ofLiteral_ok run with ⟨v, -, interned⟩ | ⟨identifier, -, looked, -⟩
      · rcases intern_ok interned with ⟨-, settled⟩ | ⟨-, -, rfl, -⟩
        · exact absurd (eq_temp_of_isTemp temp) (h.globals _ a settled).not_temp
        · cases temp
      · have same := h.distinct _ _ a (h.lookup_temp looked temp).2 known
        rw [Expr.name?, if_pos identifier, same]
  | call callee args span =>
      obtain ⟨target, d1, operands, d2, named, evaluated, passed⟩ := ofExpr_call run
      obtain ⟨token, _, -, -, looked⟩ := ofCallee_ok named
      obtain rfl := (ofName_ok looked).1
      obtain ⟨-, beside, -⟩ := ofArgs_gives below args h evaluated
      obtain ⟨-, limit, rfl, -⟩ := ofCall_ok passed
      have some := List.length_pos_of_ne_nil (passedOperands_ne_nil operands.toList)
      exact absurd known (h.unnamed beside.temps_le (by omega))
  | unary op inner span =>
      obtain ⟨-, arg, d1, first, limit, rfl, -⟩ := ofExpr_unary run
      have beside := (ofExpr_gives below inner h first).beside
      exact absurd known (h.unnamed beside.temps_le limit)
  | binary op left right span =>
      obtain ⟨first, d1, second, d2, op', one, two, -, limit, rfl, -⟩ := ofExpr_binary run
      have gives := ofExpr_gives below left h one
      have beside := gives.beside.trans (ofExpr_gives below right gives.sane two).beside
      exact absurd known (h.unnamed beside.temps_le limit)
  | assign target value span =>
      obtain ⟨d1, arg, d2, targeted, -, -⟩ := ofExpr_assign run
      obtain ⟨token, span', rfl, identifier, -, looked, -, -⟩ := ofTarget_ok targeted
      have same := h.distinct _ _ a (h.lookup_temp looked temp).2 known
      rw [Expr.name?, Expr.name?, if_pos identifier, same]

/-- The value of a variable is found at its temporary, unless its name stands for something that is
known everywhere. -/
theorem local_of_name? (h : d.Sane count) {e : Expr} (run : ofExpr c e d = .ok a d')
    (named : e.name? c.source = some name) (free : d'.globals[name]? = none) :
    d.locals[name]? = some a := by
  cases e with
  | literal token span =>
      rw [Expr.name?] at named
      split at named
      · rename_i identifier
        cases named
        rw [ofExpr] at run
        rcases ofLiteral_ok run with ⟨v, value, -⟩ | ⟨-, -, looked, rfl⟩
        · rw [identifier] at value
          cases value
        · rwa [lookup?, free] at looked
      · cases named
  | assign target value span =>
      obtain ⟨d1, arg, d2, targeted, -, -⟩ := ofExpr_assign run
      obtain ⟨token, span', rfl, identifier, -, looked, temp, -⟩ := ofTarget_ok targeted
      rw [Expr.name?, Expr.name?, if_pos identifier] at named
      cases named
      exact (h.lookup_temp looked temp).2
  | call => cases named
  | unary => cases named
  | binary => cases named

/-! ### What is written -/

/-- The copies for a call are silent. -/
theorem silent_of_mem_copies {temps : Nat} {as : List Address} {step : Step}
    (limit : temps + as.length ≤ numberLimit) (mem : step ∈ copies temps as) :
    Silent temps step := by
  obtain ⟨i, copied⟩ := List.mem_iff_getElem?.1 mem
  rw [getElem?_copies] at copied
  obtain ⟨x, at_, rfl⟩ := Option.map_eq_some_iff.1 copied
  have lt := (List.getElem?_eq_some_iff.1 at_).1
  refine ⟨rfl, fun a dest => ⟨temps + i, Nat.le_add_right _ _, by omega, ?_⟩⟩
  exact (Option.some.inj dest).symm

/-- A step that a stage adds writes a new temporary, or that of the variable that its task
assigns to. -/
theorem Stage.writes {t : Task} {b : Address} (stage : Stage count t b d d') (sane : d.Sane count)
    {k : Nat} {step : Step} (late : d.graph.steps.length ≤ k)
    (found : d'.graph.steps[k]? = some step) (dest : step.dest? = some a) :
    (∃ n, d.temps ≤ n ∧ n < numberLimit ∧ a = .temp (Int16.ofNat n)) ∨
      ∃ name, t.expr.assigned? t.place.source = some name ∧ d'.locals[name]? = some a := by
  have sane0 := stage.sane
  have beside := stage.beside
  have added {steps : List Step} (same : d'.graph.steps = d.graph.steps ++ steps) :
      step ∈ steps := by
    rw [same, List.getElem?_append_right late] at found
    exact List.mem_of_getElem? found
  obtain ⟨place, scope, e, d0⟩ := t
  cases stage.finish with
  | literal run =>
      rw [graph_of_ofLiteral run, List.getElem?_eq_none late] at found
      cases found
  | call named length small limit =>
      rcases List.mem_append.1 (added (steps_called _ _ sane.opened)) with mem | mem
      · exact .inl ((silent_of_mem_copies limit mem).2 a dest)
      · rw [List.mem_singleton.1 mem] at dest
        cases dest
  | unary limit =>
      rw [List.mem_singleton.1 (added (Graph.steps_pushNewest sane.opened))] at dest
      cases dest
      exact .inl ⟨d.temps, Nat.le_refl _, limit, rfl⟩
  | binary limit =>
      rw [List.mem_singleton.1 (added (Graph.steps_pushNewest sane.opened))] at dest
      cases dest
      exact .inl ⟨d.temps, Nat.le_refl _, limit, rfl⟩
  | assign targeted =>
      rw [List.mem_singleton.1 (added (Graph.steps_pushNewest sane.opened))] at dest
      cases dest
      obtain ⟨token, span, rfl, identifier, -, looked, temp, -⟩ := ofTarget_ok targeted
      have known : d.locals[token.lexeme place.source]? = some a := by
        rw [beside.same_locals]
        exact (sane0.lookup_temp looked temp).2
      refine .inr ⟨token.lexeme place.source, ?_, known⟩
      rw [Expr.assigned?, Expr.name?, if_pos identifier]

/-- A step of a course writes a new temporary, or that of a variable that one of the tasks assigns
to. -/
theorem Course.writes {scope scope' : List (String × Address)} {tasks : List Task}
    (h : Course count c scope d tasks scope' d') (sane : d.Sane count) {k : Nat} {step : Step}
    (late : d.graph.steps.length ≤ k) (found : d'.graph.steps[k]? = some step)
    (dest : step.dest? = some a) :
    (∃ n, d.temps ≤ n ∧ n < numberLimit ∧ a = .temp (Int16.ofNat n)) ∨
      ∃ name ∈ tasks.filterMap fun t => t.expr.assigned? c.source, d'.locals[name]? = some a := by
  rcases h.origin sane late found with silent | ⟨t, mem, d1, d2, adds⟩
  · exact .inl (silent.2 a dest)
  · obtain ⟨b, stage⟩ := adds.stage
    rcases stage.writes adds.sane adds.late adds.found dest with ⟨n, le, new⟩ |
      ⟨name, assigned, known⟩
    · exact .inl ⟨n, Nat.le_trans adds.before.temps_le le, new⟩
    · rw [adds.place] at assigned
      exact .inr ⟨name, List.mem_filterMap.2 ⟨t, mem, assigned⟩, adds.after.locals _ _ known⟩

/-- Compiling writes the temporary of a local, whose name is not known everywhere. -/
structure Assigns (d d' : Draft) (name : String) : Prop where
  free : d.globals[name]? = none
  writes : ∃ a, d.locals[name]? = some a ∧ ∃ q step, d.graph.steps.length ≤ q ∧
    d'.graph.steps[q]? = some step ∧ step.dest? = some a

theorem Assigns.widen {d0 : Draft} (h : Assigns d d' name) (before : d0.Beside d)
    (after : d'.Beside d'') : Assigns d0 d'' name := by
  obtain ⟨free, a, known, q, step, le, found, dest⟩ := h
  have later : d''.graph.steps[q]? = some step := by
    rwa [getElem?_of_isPrefix after.steps (List.getElem?_eq_some_iff.1 found).1]
  exact ⟨before.unknown free, a, before.same_locals ▸ known, q, step,
    Nat.le_trans before.steps.length_le le, later, dest⟩

mutual

/-- The variables that are assigned to in an expression are written. -/
theorem ofExpr_assigns (below : c.procedures.Below count) (e : Expr) {d d' : Draft} {a : Address}
    (h : d.Sane count) (run : ofExpr c e d = .ok a d') (mem : name ∈ e.assigned c.source) :
    Assigns d d' name := by
  have gives := ofExpr_gives below e h run
  cases e with
  | literal token span => cases mem
  | call callee args span =>
      obtain ⟨target, d1, operands, d2, named, evaluated, passed⟩ := ofExpr_call run
      obtain ⟨token, _, -, -, looked⟩ := ofCallee_ok named
      obtain rfl := (ofName_ok looked).1
      obtain ⟨sane, beside, as, all, length, usable⟩ := ofArgs_gives below args h evaluated
      have all : operands.toList = as := all
      obtain ⟨small, limit, rfl, rfl⟩ := ofCall_ok passed
      rw [all] at small limit ⊢
      have called := (Gives.passed h below looked beside sane small limit usable).beside
      rw [Expr.assigned, Expr.parts, List.filterMap_append] at mem
      have inside : name ∈ (Expr.partsOf args).filterMap (Expr.assigned? c.source) := by
        simpa [Expr.assigned?] using mem
      exact (ofArgs_assigns below args h evaluated inside).widen (.refl d1) called
  | unary op inner span =>
      obtain ⟨-, arg, d1, first, limit, rfl, rfl⟩ := ofExpr_unary run
      have sane := (ofExpr_gives below inner h first).sane
      rw [Expr.assigned, Expr.parts, List.filterMap_append] at mem
      have inside : name ∈ inner.assigned c.source := by
        simpa [Expr.assigned?, Expr.assigned] using mem
      exact (ofExpr_assigns below inner h first inside).widen (.refl d)
        (sane.beside_computed rfl rfl)
  | binary op left right span =>
      obtain ⟨first, d1, second, d2, op', one, two, -, limit, rfl, rfl⟩ := ofExpr_binary run
      have gives1 := ofExpr_gives below left h one
      have gives2 := ofExpr_gives below right gives1.sane two
      have last : d2.Beside (d2.computed (.binary · (.binary op') first second)) :=
        gives2.sane.beside_computed rfl rfl
      rw [Expr.assigned, Expr.parts, List.filterMap_append, List.filterMap_append] at mem
      have inside : name ∈ left.assigned c.source ∨ name ∈ right.assigned c.source := by
        simpa [Expr.assigned?, Expr.assigned] using mem
      rcases inside with inside | inside
      · exact (ofExpr_assigns below left h one inside).widen (.refl d) (gives2.beside.trans last)
      · exact (ofExpr_assigns below right gives1.sane two inside).widen gives1.beside last
  | assign target value span =>
      obtain ⟨d1, arg, d2, targeted, evaluated, rfl⟩ := ofExpr_assign run
      obtain ⟨token, span', rfl, identifier, -, looked, temp, rfl⟩ := ofTarget_ok targeted
      have gives2 := ofExpr_gives below value h evaluated
      rw [Expr.assigned, Expr.parts, List.filterMap_append, List.filterMap_append] at mem
      have inside : name ∈ value.assigned c.source ∨ name = token.lexeme c.source := by
        simpa [Expr.assigned?, Expr.assigned, Expr.parts, Expr.name?, identifier] using mem
      rcases inside with inside | rfl
      · exact (ofExpr_assigns below value h evaluated inside).widen (.refl d1)
          (gives2.sane.beside_pushed rfl rfl)
      · obtain ⟨free, known⟩ := h.lookup_temp looked temp
        have steps : (d2.pushed (.copy a arg)).graph.steps = d2.graph.steps ++ [.copy a arg] :=
          Graph.steps_pushNewest gives2.sane.opened
        refine ⟨free, a, known, d2.graph.steps.length, .copy a arg,
          gives2.beside.steps.length_le, ?_, rfl⟩
        rw [steps, List.getElem?_concat_length]
termination_by sizeOf e

theorem ofArgs_assigns (below : c.procedures.Below count) (es : List Expr) {d d' : Draft}
    {read operands : Array Address} (h : d.Sane count)
    (run : ofArgs c es read d = .ok operands d')
    (mem : name ∈ (Expr.partsOf es).filterMap (Expr.assigned? c.source)) : Assigns d d' name := by
  cases es with
  | nil => cases mem
  | cons e rest =>
      obtain ⟨first, d1, one, more⟩ := ofArgs_cons run
      have gives := ofExpr_gives below e h one
      obtain ⟨-, beside, -⟩ := ofArgs_gives below rest gives.sane more
      rw [Expr.partsOf, List.filterMap_append] at mem
      rcases List.mem_append.1 mem with mem | mem
      · exact (ofExpr_assigns below e h one mem).widen (.refl d) beside
      · exact (ofArgs_assigns below rest gives.sane more mem).widen gives.beside (.refl d')
termination_by sizeOf es

end

end Draft

end RegisterCode
