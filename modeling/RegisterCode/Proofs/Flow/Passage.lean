import RegisterCode.Proofs.Flow.Course
import RegisterCode.Proofs.Flow.Forest

/-!
The passage through a forest: its functions are compiled one after the other, each of them by
a course that begins with the names of its parameters and with the constants and the names of
literals that the functions before it have left.
-/

namespace RegisterCode

namespace Tasks

/-- The names of parameters, with their temporaries. -/
def ofParams (names : List String) : List (String × Address) :=
  names.zipIdx.map fun entry => (entry.1, .temp (Int16.ofNat entry.2))

/-- The tasks of each function of a forest that is compiled from a draft on. -/
def ofUnits (procedures : Registry) (sources : Array String) :
    List SourceUnit → Draft → List (List Task)
  | [], _ => []
  | unit :: rest, d =>
    let c := unit.context procedures sources
    let more := ofUnits procedures sources rest (d.attempt (Draft.ofDeclaration c unit.stmt))
    match unit.stmt with
    | .function _ params body =>
      ofStmt c (ofParams (params.map fun param => param.lexeme c.source)) body
        (leaves (Draft.ofParams c params) d.enter) :: more
    | _ => more

/-- The tasks of each function of a forest, in the order of the functions' numbers. -/
def ofForest (procedures : Registry) (sources : Array String) (forest : List SourceUnit) :
    List (List Task) :=
  ofUnits procedures sources forest (Draft.declaredIn sources forest)

end Tasks

namespace Draft

variable {procedures : Registry} {sources : Array String} {forest : List SourceUnit} {d d' : Draft}
  {c : Context} {count : Nat}

/-- A function was compiled: from the draft with its parameters to the one with its body. -/
structure Written (procedures : Registry) (count : Nat) (f : Declaration) (g : Graph)
    (tasks : List Task) (d d' d1 d2 : Draft) : Prop where
  compiles : ∃ d3, Compiles procedures f g d d3 ∧ d' = d3.close
  entered : Entered f.params d d1
  course : ∃ scope, Course count ⟨procedures, f.source⟩ (Tasks.ofParams f.params) d1 tasks scope d2
  sites : tasks.map Task.site = f.body.parts.map fun e => (⟨procedures, f.source⟩, e)
  sane : d1.Sane count
  sane' : d2.Sane count
  listing : g.listing = d2.graph.listing
  globals : d'.globals = d2.globals
  constants : d'.constants = d2.constants
  functions : d'.functions = d.functions

/-- Functions were compiled one after the other. -/
inductive Passage (procedures : Registry) (count : Nat) :
    Draft → List Declaration → List Graph → List (List Task) → Draft → Prop where
  | nil {d : Draft} : Passage procedures count d [] [] [] d
  | cons {d d' d'' d1 d2 : Draft} {f : Declaration} {fs : List Declaration} {g : Graph}
      {gs : List Graph} {tasks : List Task} {more : List (List Task)}
      (written : Written procedures count f g tasks d d' d1 d2)
      (rest : Passage procedures count d' fs gs more d'') :
    Passage procedures count d (f :: fs) (g :: gs) (tasks :: more) d''

/-- The parameters of a function that was entered. -/
theorem Entered.bound {names : List String} (h : Entered names d d') :
    ∀ entry ∈ Tasks.ofParams names, d'.locals[entry.1]? = some entry.2 := by
  intro entry mem
  obtain ⟨⟨name, i⟩, at_, rfl⟩ := List.mem_map.1 mem
  exact (h.locals name _).2 ⟨i, List.mem_zipIdx_iff_getElem?.1 at_, rfl⟩

theorem Written.onward {f : Declaration} {g : Graph} {tasks : List Task} {d1 d2 : Draft}
    (h : Written procedures count f g tasks d d' d1 d2) : d1.Onward d2 :=
  have ⟨_, course⟩ := h.course
  course.onward

theorem Written.steps {f : Declaration} {g : Graph} {tasks : List Task} {d1 d2 : Draft}
    (h : Written procedures count f g tasks d d' d1 d2) : g.steps = d2.graph.steps :=
  congrArg Listing.steps h.listing

/-- Constants only become more. -/
theorem Written.constants_prefix {f : Declaration} {g : Graph} {tasks : List Task} {d1 d2 : Draft}
    (h : Written procedures count f g tasks d d' d1 d2) :
    d.constants.toList <+: d'.constants.toList := by
  have before : d1.constants = d.constants := by
    rw [h.entered.eq]
    rfl
  have onward := h.onward.constants
  rwa [before, ← h.constants] at onward

/-- What is known of one of the functions. -/
theorem Passage.written {fs : List Declaration} {gs : List Graph} {more : List (List Task)}
    (h : Passage procedures count d fs gs more d') {i : Nat} {g : Graph}
    (at_ : gs[i]? = some g) :
    ∃ f tasks d1 d2 d3 d4, fs[i]? = some f ∧ more[i]? = some tasks ∧
      Written procedures count f g tasks d1 d2 d3 d4 := by
  induction h generalizing i with
  | nil => simp at at_
  | cons written _ ih =>
      cases i with
      | zero =>
          cases at_
          exact ⟨_, _, _, _, _, _, rfl, rfl, written⟩
      | succ i => exact ih at_

/-- What compiling a function comes to. -/
theorem written_of_ofFunction (below : procedures.Below count) (name : String) {source : String}
    {params : List Token} {body : Stmt} (steady : d.Steady)
    (run : ofFunction ⟨procedures, source⟩ params body d = .ok () d') :
    ∃ d1 d2, Written procedures count
      ⟨name, params.map fun param => param.lexeme source, body, source⟩ d'.graph
      (Tasks.ofStmt ⟨procedures, source⟩
        (Tasks.ofParams (params.map fun param => param.lexeme source)) body
        (leaves (ofParams ⟨procedures, source⟩ params) d.enter)) d d'.close d1 d2 := by
  obtain ⟨d1, d2, binding, compiled, linking⟩ := ofFunction_runs run
  have entered := entered_of_ofParams binding
  have sane : d1.Sane count := entered.sane steady
  have executes := ofStmt_executes below body sane compiled
  obtain ⟨eq, -, -, rows, paramCount⟩ := forM_link_ok linking executes.sane.bare.wired
  have finished := ofFunction_finished below steady run
  refine ⟨d1, d2, ⟨_, ⟨⟨params, rfl, run⟩, rfl⟩, rfl⟩, entered, ?_, Tasks.map_site_ofStmt _ _ _,
    sane, executes.sane, ?_, ?_, ?_, finished.functions⟩
  · rw [leaves_of_ok binding]
    exact ⟨_, ofStmt_course below body _ sane compiled⟩
  · rw [Graph.listing, Graph.listing, Graph.steps_congr rows, paramCount]
  · rw [eq]
    rfl
  · rw [eq]
    rfl

/-- Declarations that are accepted are passed through. -/
theorem passage_of_forM (below : procedures.Below count) (steady : d.Steady) {u : Unit}
    (run : forest.forM (fun unit =>
      ofDeclaration (unit.context procedures sources) unit.stmt) d = .ok u d') :
    d'.main = d.main ∧ ∃ gs : List Graph, d'.graphs.toList = d.graphs.toList ++ gs ∧
      Passage procedures count d (declarations sources forest) gs
        (Tasks.ofUnits procedures sources forest d) d' := by
  induction forest generalizing d with
  | nil =>
      cases run
      exact ⟨rfl, [], (List.append_nil _).symm, .nil⟩
  | cons unit rest ih =>
      rw [forM_cons] at run
      obtain ⟨_, d1, first, more⟩ := bind_eq_ok_iff.1 run
      have attempted : d.attempt (ofDeclaration (unit.context procedures sources) unit.stmt) = d1 :=
        attempt_of_ok first
      rcases ofDeclaration_ok first with ⟨name, params, body, d2, stmt, compiled, rfl⟩ |
        ⟨other, rfl⟩
      · have finished := ofFunction_finished below steady compiled
        obtain ⟨main, gs, graphs, passage⟩ := ih finished.close more
        obtain ⟨d3, d4, written⟩ := written_of_ofFunction below (name.lexeme _) steady compiled
        refine ⟨main.trans finished.main, d2.graph :: gs, ?_, ?_⟩
        · have pushed : d2.close.graphs.toList = d2.graphs.toList ++ [d2.graph] :=
            Array.toList_push
          rw [graphs, pushed, finished.graphs, List.append_assoc]
          rfl
        · have declared : unit.declaration? sources = some
              ⟨name.lexeme (sources.getD unit.source ""),
                params.map fun param => param.lexeme (sources.getD unit.source ""), body,
                sources.getD unit.source ""⟩ := by
            rw [SourceUnit.declaration?, stmt]
          rw [declarations, List.filterMap_cons_some declared, Tasks.ofUnits, attempted, stmt]
          exact .cons written passage
      · have declared : unit.declaration? sources = none := by
          unfold SourceUnit.declaration?
          cases stmt : unit.stmt with
          | function name params body => exact absurd stmt (other name params body)
          | _ => rfl
        have tasks : Tasks.ofUnits procedures sources (unit :: rest) d1 =
            Tasks.ofUnits procedures sources rest d1 := by
          rw [Tasks.ofUnits, attempted]
          cases stmt : unit.stmt with
          | function name params body => exact absurd stmt (other name params body)
          | _ => rfl
        rw [declarations, List.filterMap_cons_none declared, tasks]
        exact ih steady more

/-- A forest that is accepted is passed through, from the draft with its functions declared to
the one that the bundle is taken from. -/
theorem passage_of_ofForest {b : Bundle}
    (h : Bundle.ofForest procedures sources forest = .ok b) :
    Declared ((declarations sources forest).map Declaration.name) (declaredIn sources forest) ∧
      b.main = (declaredIn sources forest).main ∧
      ∃ d', Passage procedures 65536 (declaredIn sources forest) (declarations sources forest)
        b.graphs.toList (Tasks.ofForest procedures sources forest) d' ∧
        b.constants = d'.constants := by
  obtain ⟨declared, d', run, rfl⟩ := ofForest_runs h
  obtain ⟨main, gs, graphs, passage⟩ :=
    passage_of_forM (fun _ id _ => id.toNat_lt) declared.steady run
  rw [declared.graphs] at graphs
  have graphs : d'.graphs.toList = gs := graphs
  refine ⟨declared, main, d', ?_, rfl⟩
  rw [graphs]
  exact passage

/-- What is known of a graph of a forest that is accepted. -/
theorem written_of_ofForest {b : Bundle} (h : Bundle.ofForest procedures sources forest = .ok b)
    {f : Nat} {g : Graph} (at_ : b.graphs[f]? = some g) :
    ∃ function tasks d1 d2 d3 d4, (declarations sources forest)[f]? = some function ∧
      (Tasks.ofForest procedures sources forest)[f]? = some tasks ∧
      Written procedures 65536 function g tasks d1 d2 d3 d4 := by
  obtain ⟨-, -, d', passage, -⟩ := passage_of_ofForest h
  rw [← Array.getElem?_toList] at at_
  exact passage.written at_

end Draft

end RegisterCode
