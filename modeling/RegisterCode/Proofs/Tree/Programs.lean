import RegisterCode.Proofs.Code.Ample
import RegisterCode.Proofs.Tree.Functions

/-!
Whole programs: running the program of a forest agrees with evaluating the forest
(`run_agrees_with_evaluation`), and a run that has room comes to what the evaluation comes to
(`exists_run_of_evaluation`).
-/

namespace RegisterCode

open Draft Tracked

/-! ### Registries of tables -/

/-- The numbers in the registry of a table are places of the table. -/
theorem below_ofTable (table : Array Procedure) : (Registry.ofTable table).Below table.size := by
  intro name id known
  obtain ⟨i, at_, rfl⟩ := Registry.exists_of_id? known
  have inside := (Array.getElem?_eq_some_iff.1 at_).1
  rw [Array.size_map] at inside
  exact Nat.lt_of_le_of_lt (Nat.mod_le _ _) inside

/-! ### Forests and charts -/

variable {table : Array Procedure} {sources : Array String} {forest : List SourceUnit}
  {b : Bundle}

/-- The lexemes of the units of a forest are used as what they are. -/
theorem used_of_unit {kindOf : String → TokenKind}
    (serves : ∀ x ∈ lexemes sources forest, kindOf x.1 = x.2) {unit : SourceUnit}
    (mem : unit ∈ forest) :
    AllUsed (fun lexeme kind => kindOf lexeme = kind) (sources.getD unit.source "")
      unit.stmt.tokens := by
  intro token there
  refine serves (_, token.kind) (List.mem_flatMap.2 ⟨unit, mem, ?_⟩)
  exact List.mem_map.2 ⟨token, there, rfl⟩

/-- A function that is declared in a forest, as a unit of it. -/
theorem exists_unit {f : Declaration} (mem : f ∈ declarations sources forest) :
    ∃ unit ∈ forest, ∃ name params, unit.stmt = .function name params f.body ∧
      f.source = sources.getD unit.source "" ∧ f.name = name.lexeme f.source := by
  obtain ⟨unit, there, declared⟩ := List.mem_filterMap.1 mem
  unfold SourceUnit.declaration? at declared
  dsimp only at declared
  split at declared
  · rename_i name params body stmt
    cases declared
    exact ⟨unit, there, name, params, stmt, rfl, rfl⟩
  · cases declared

/-- A forest that is accepted was compiled to the listings of its chart. -/
theorem charted_of_ofForest (hygienic : Hygienic sources forest)
    (accepted : Bundle.ofForest (.ofTable table) sources forest = .ok b) :
    ∃ kindOf, Charted (b.chart table) table (declarations sources forest) kindOf := by
  obtain ⟨kindOf, serves⟩ := hygienic.kindOf
  have below := below_ofTable table
  have orderly := orderly_of_ofForest below accepted
  obtain ⟨d, d', declared, compiled, rfl⟩ := ofForest_ok accepted
  have named : d.Named kindOf fun name =>
      (declarations sources forest).findIdx? fun other => other.name = name := by
    have identifiers : ∀ name ∈ (declarations sources forest).map Declaration.name,
        kindOf name = .identifier := fun name mem => by
      obtain ⟨f, there, rfl⟩ := List.mem_map.1 mem
      obtain ⟨unit, inForest, name, params, stmt, source, same⟩ := exists_unit there
      have used := used_of_unit serves inForest name.asName (by rw [stmt]; simp [Stmt.tokens])
      rw [same, source]
      exact used
    simpa only [List.findIdx?_map, Function.comp_def] using declared.named identifiers
  have keeps : ∀ unit ∈ forest, ∀ d d' : Draft, d.Steady →
      (d.Named kindOf fun name => (declarations sources forest).findIdx? fun other =>
        other.name = name) →
      ofDeclaration (unit.context (.ofTable table) sources) unit.stmt d = .ok () d' →
      d'.Named kindOf fun name => (declarations sources forest).findIdx? fun other =>
        other.name = name :=
    fun unit mem d d' _ named run =>
      (ofDeclaration_keeps keepsNames_tame unit.stmt (used_of_unit serves mem)).ok run named
  obtain ⟨-, -, -, -, -, gs, graphs, length, each⟩ :=
    progress_of_forM below keeps declared.steady named compiled
  rw [declared.graphs] at graphs
  have graphs : d'.graphs.toList = gs := graphs
  refine ⟨kindOf, rfl, below, ?_, fun l mem => ?_, fun g function l at_ listed => ?_⟩
  · simp only [Bundle.chart, List.length_map, graphs, length]
  · obtain ⟨graph, there, rfl⟩ := List.mem_map.1 mem
    have orderly := orderly.orderly graph (Array.mem_toList_iff.1 there)
    simpa only [Bundle.chart, List.length_map, Array.length_toList] using orderly
  · obtain ⟨graph, here, rfl⟩ : ∃ graph, gs[g]? = some graph ∧ graph.listing = l := by
      simpa only [Bundle.chart, graphs, List.getElem?_map, Option.map_eq_some_iff] using listed
    obtain ⟨d0, d1, steady, named, -, ⟨⟨params, eq, run⟩, rfl⟩, constants⟩ :=
      each g function graph at_ here
    refine ⟨d0, d1, params, steady, named, ?_, eq, run, rfl, constants⟩
    obtain ⟨unit, inForest, name, params, stmt, source, -⟩ := exists_unit (List.mem_of_getElem? at_)
    have used := used_of_unit serves inForest
    rw [stmt, Stmt.tokens, allUsed_append, ← source] at used
    exact used.2

/-- The entry of a program is the function that evaluation starts in, also when the graphs
have changed since the forest was compiled. -/
theorem entry?_of_ofForest {b' : Bundle} {program : Program}
    (accepted : Bundle.ofForest (.ofTable table) sources forest = .ok b)
    (main : b'.main = b.main) (graphs : b'.graphs.size = b.graphs.size)
    (emitted : Program.ofBundle b' = .ok program) :
    program.entry? = mainFunction? (declarations sources forest) := by
  obtain ⟨d, d', declared, compiled, rfl⟩ := ofForest_ok accepted
  obtain ⟨-, -, functions, unchanged, -, gs, added, length, -⟩ :=
    progress_of_forM (below_ofTable table) (fun _ _ _ _ _ _ _ => trivial) declared.steady
      (show (fun _ => True) d from trivial) compiled
  obtain ⟨-, entry, size, -⟩ := ofBundle_ok emitted
  have first : b'.main = mainFunction? (declarations sources forest) := by
    have first : d'.main = mainFunction? (declarations sources forest) := by
      rw [unchanged, declared.main, mainFunction?, List.findIdx?_map]
      rfl
    exact main.trans first
  have count : program.chunks.size = (declarations sources forest).length := by
    rw [declared.graphs] at added
    have added : d'.graphs.toList = gs := added
    rw [size, graphs, ← length, ← added]
    exact (Array.length_toList ..).symm
  rw [Program.entry?, entry, first]
  cases found : mainFunction? (declarations sources forest) with
  | none => rfl
  | some f =>
      have lt := (List.findIdx?_eq_some_iff_getElem.1 found).1
      have limit := declared.limit
      rw [List.length_map] at limit
      have word : (UInt64.ofNat f).toNat = f :=
        UInt64.toNat_ofNat_of_lt (Nat.lt_of_lt_of_le lt (Nat.le_trans limit (by decide)))
      simp [word, count, lt]

/-- A journey that begins in the entry function comes to what the evaluation of the forest
comes to. -/
theorem answers_of_ofForest (hygienic : Hygienic sources forest)
    (accepted : Bundle.ofForest (.ofTable table) sources forest = .ok b) {f : Nat}
    (main : mainFunction? (declarations sources forest) = some f) (depth : Nat) (w : World) :
    ∃ r, evaluateForest table (declarations sources forest) depth w = some r ∧
      Journey.Answers (b.chart table) depth (.start f w) r := by
  obtain ⟨kindOf, charted⟩ := charted_of_ofForest hygienic accepted
  have lt := (List.findIdx?_eq_some_iff_getElem.1 main).1
  have declared := List.getElem?_eq_getElem lt
  obtain ⟨l, listed, -⟩ := charted.arity declared
  -- The entry function is entered without arguments.
  have temps : l.entered [] = fun _ => none := by
    funext t
    exact List.getElem?_nil
  have answers := charted.answers depth declared listed [] [] w
  rw [temps] at answers
  refine ⟨_, ?_, answers⟩
  rw [evaluateForest, main]
  rfl

/-! ### Runs -/

/-- What an evaluation comes to as the end of a run, if it is one. -/
inductive Ending : Except Stop Value → Except Fault Value → Prop where
  | ok (v : Value) : Ending (.ok v) (.ok v)
  | failed (fault : Fault) : Ending (.error (.failed fault)) (.error fault)

/-- Let a forest be accepted in which no lexeme serves two purposes, and let it have
code. If no function is called `main`, a run ends as one without an entry. Otherwise,
a run that comes to its end and meets no limit agrees with the evaluation of the forest,
unless that finds a variable that is not set, or a call with another number of arguments
than the function has a place for: the run ends with the same status, output and store,
and with the value that the evaluation gives in register 0. -/
theorem run_agrees_with_evaluation (lawful : ∀ p ∈ table, p.Lawful)
    (hygienic : Hygienic sources forest)
    (accepted : Bundle.ofForest (.ofTable table) sources forest = .ok b) {program : Program}
    (emitted : Program.ofBundle b = .ok program) (limits : Limits) (m : Machine) :
    let s : Setting := ⟨limits, program, table⟩
    let functions := declarations sources forest
    (mainFunction? functions = none →
      (m.execute s).status = .entryError ∧ (m.execute s).world = m.outset) ∧
    (mainFunction? functions ≠ none → 2 ≤ limits.operands →
      ∀ (n : Nat) (z : Tracked), Completes s storing Any n (.begin s m) z →
        (∀ k, n ≤ k → (m.begin s).follow s k = z.machine) ∧
        ∀ depth, max 1 limits.depth ≤ depth →
          ∃ r w, evaluateForest table functions depth m.outset = some (r, w) ∧
            (r ≠ .error .undefined → ∃ ending, Ending r ending ∧ Shows z ending w)) := by
  intro s functions
  have entry : s.program.entry? = mainFunction? functions :=
    entry?_of_ofForest accepted rfl rfl emitted
  refine ⟨fun none => ?_, fun found room n z run => ⟨run.follow, fun depth deep => ?_⟩⟩
  · rw [Machine.execute, Machine.begin_of_none m (entry.trans none)]
    exact ⟨rfl, rfl⟩
  · obtain ⟨f, main⟩ := Option.ne_none_iff_exists'.1 found
    have orderly := orderly_of_ofForest (below_ofTable table) accepted
    have linked : Linked s (b.chart table) := linked_of_ofBundle orderly lawful emitted
    obtain ⟨l, start⟩ := Match.begin linked m (entry.trans main) room
    obtain ⟨⟨r, w⟩, evaluated, answers⟩ := answers_of_ofForest hygienic accepted main depth m.outset
    refine ⟨r, w, evaluated, fun defined => ?_⟩
    cases r with
    | ok v =>
        obtain ⟨k, there, waiting, rfl, leaves⟩ := answers
        refine ⟨_, .ok v, start.finished linked run (Journey.Finishes.of_reaches there ?_)⟩
        refine .finished (leaves.trans ?_)
        rw [Journey.leave, waiting]
        rfl
    | error stop =>
        cases stop with
        | returned v => exact answers.elim
        | failed fault =>
            obtain ⟨k, there, fails⟩ := answers
            exact ⟨_, .failed fault,
              start.finished linked run (.of_reaches there (.failed fails))⟩
        | undefined => exact absurd rfl defined
        | tooDeep =>
            -- More frames would be open than the machine allows.
            obtain ⟨k, there, deeper⟩ := answers
            obtain ⟨l', y, n', here, -⟩ := start.reaches linked run there
            have within : k.waiting.length < max 1 limits.depth := here.waiting_lt
            have deeper : 0 + depth ≤ k.waiting.length := deeper
            omega
        | malformed => exact answers.elim

/-! ### A run of the sample -/

namespace Sample

theorem hygienic : Hygienic #[text] Sample.forest := by decide +kernel

theorem functions : declarations #[text] Sample.forest =
    [⟨"twice", ["n"], .ret (.mkBinary .add (atom .identifier 6 7) (atom .identifier 6 7)), text⟩,
      ⟨"main", [], .block [
        .define (token .identifier 13 14) (.mkCall (atom .identifier 0 5) [atom .int 15 17]),
        .ifElse (.mkBinary .equality (atom .identifier 13 14) (atom .int 18 20))
          (.block [.expr (.mkCall (atom .identifier 23 28) [atom .identifier 13 14]),
            .ret (atom .int 21 22)])
          (.ret (atom .identifier 13 14))], text⟩] := by
  simp [declarations, Sample.forest, twice, main, SourceUnit.declaration?, token, Token.lexeme,
    Span.text, slices]

theorem start : mainFunction? (declarations #[text] Sample.forest) = some 1 := by decide +kernel

theorem outcomes : BinaryOp.add.outcome (.int 21) (.int 21) = .ok (.int 42) ∧
    BinaryOp.equ.outcome (.int 42) (.int 42) = .ok (.bool true) := by decide

theorem printed (w : World) : ∃ p, Procedure.standard[0]? = some p ∧
    p.perform [.int 42] w = (.ok (.int 42), { w with output := w.output ++ "42" ++ "\n" }) :=
  ⟨_, rfl, rfl⟩

/-- The sample prints 42 and returns 0. -/
theorem evaluated (w : World) :
    evaluateForest Procedure.standard (declarations #[text] Sample.forest) 2 w =
      some (.ok (.int 0), { w with output := w.output ++ "42" ++ "\n" }) := by
  obtain ⟨p, first, answer⟩ := printed w
  rw [evaluateForest, start]
  simp [functions, evaluateCall, Scope.run, Scope.perform, Scope.performAll, Scope.evaluate,
    Scope.evaluateAll, Expr.mkBinary, Expr.mkCall, atom, Expr.ofToken, token, Token.lexeme,
    Span.text, slices, numbers, procedures, bind_apply, Scope.callExpr, Scope.callName,
    Scope.callFunction, Scope.literal, TokenKind.value?, Scope.registry, Registry.contains,
    Scope.function?, Reading.get, Scope.passed, Scope.entered, Scope.combine, Operator.binary?,
    List.findIdx?_cons, outcomes, Scene.set, Scope.decided, Value.truthy?, Scope.callProcedure,
    first, answer]

end Sample

theorem run_of_sample_agrees :
    let s : Setting := ⟨⟨8, 4, 2, some 40⟩, Sample.program, Procedure.standard⟩
    let m := Machine.initial s.limits []
    ∃ z, Completes s storing Any 16 (.begin s m) z ∧
      (∀ k, 16 ≤ k → (m.begin s).follow s k = z.machine) ∧
      Shows z (.ok (.int 0)) { m.outset with output := m.outset.output ++ "42" ++ "\n" } := by
  intro s m
  have ends : (completion? s storing Any 40 (.begin s m)).map Prod.fst = some 16 := by
    decide +kernel
  obtain ⟨⟨n, z⟩, completion, rfl⟩ := Option.map_eq_some_iff.1 ends
  have run := completes_of_completion? completion
  have agrees := run_agrees_with_evaluation Procedure.standard_lawful Sample.hygienic
    Sample.accepted Sample.emitted s.limits m
  obtain ⟨there, evaluation⟩ := agrees.2 (by rw [Sample.start]; nofun) (by decide) 16 z run
  obtain ⟨r, w, evaluated, shows⟩ := evaluation 2 (Nat.le_refl 2)
  rw [Sample.evaluated] at evaluated
  cases evaluated
  obtain ⟨ending, same, shows⟩ := shows nofun
  cases same
  exact ⟨z, run, there, shows⟩

/-! ### Runs with room -/

/-- A run with room for as many calls as the evaluation of the forest opens is completed, and
shows what the evaluation comes to. If that is a fault, an instruction of the run fails with
it. -/
theorem exists_run_of_evaluation (lawful : ∀ p ∈ table, p.Lawful)
    (hygienic : Hygienic sources forest)
    (accepted : Bundle.ofForest (.ofTable table) sources forest = .ok b) {program : Program}
    (emitted : Program.ofBundle b = .ok program) {limits : Limits} {width depth : Nat}
    (within : (b.chart table).Within width) (ample : limits.Ample width depth) (m : Machine)
    {r : Except Stop Value} {w : World}
    (evaluated : evaluateForest table (declarations sources forest) depth m.outset = some (r, w))
    {ending : Except Fault Value} (ends : Ending r ending) :
    let s : Setting := ⟨limits, program, table⟩
    ∃ n z, Completes s storing Any n (.begin s m) z ∧ Shows z ending w ∧
      ∀ fault, ending = .error fault → ∃ n' y m', Steps s storing n' (.begin s m) y ∧
        y.machine.attempt s = .failed fault m' := by
  intro s
  obtain ⟨f, main⟩ : ∃ f, mainFunction? (declarations sources forest) = some f := by
    rw [evaluateForest, Option.map_eq_some_iff] at evaluated
    obtain ⟨f, main, -⟩ := evaluated
    exact ⟨f, main⟩
  have orderly := orderly_of_ofForest (below_ofTable table) accepted
  have linked : Linked s (b.chart table) := linked_of_ofBundle orderly lawful emitted
  have entry : s.program.entry? = some f :=
    (entry?_of_ofForest accepted rfl rfl emitted).trans main
  have operands := ample.operands
  obtain ⟨l, start⟩ := Match.begin linked m entry (by omega : 2 ≤ limits.operands)
  obtain ⟨r', evaluated', answers⟩ := answers_of_ofForest hygienic accepted main depth m.outset
  obtain rfl := Option.some.inj (evaluated'.symm.trans evaluated)
  have alone : (Journey.start f m.outset).waiting.length + depth ≤ depth :=
    Nat.le_of_eq (Nat.zero_add depth)
  cases ends with
  | ok v =>
      obtain ⟨k, there, waiting, rfl, leaves⟩ := answers
      have there := there.mono alone
      have few : k.waiting.length ≤ depth := waiting ▸ Nat.zero_le depth
      have last : k.step (b.chart table) = .finished v k.world := by
        rw [leaves, Journey.leave, waiting]
        rfl
      obtain ⟨l', n, y, steps, here⟩ := start.follows linked within ample there
      obtain ⟨n', z, run, shows'⟩ := here.returns linked within ample few last
      refine ⟨n + n', z, run.of_steps steps, shows', fun fault same => ?_⟩
      cases same
  | failed fault =>
      obtain ⟨k, there, last⟩ := answers
      have there := there.mono alone
      obtain ⟨l', n, y, steps, here⟩ := start.follows linked within ample there
      obtain ⟨n', y', m', steps', failed, limit, world⟩ :=
        here.fails linked within ample there.waiting_le last
      have steps'' := steps.trans steps'
      refine ⟨_, _, (Completes.failed (fun _ _ => trivial) failed limit).of_steps steps'',
        ⟨world, rfl⟩, fun fault' same => ?_⟩
      cases same
      exact ⟨_, y', m', steps'', failed⟩

end RegisterCode
