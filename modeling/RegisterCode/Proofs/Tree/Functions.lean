import RegisterCode.Proofs.Tree.Statements

/-!
Whole functions and whole programs: what the code of a forest comes to is what the
forest means. A function is looked at together with all that it calls, so the
induction is on how many calls may be open at a time.
-/

namespace RegisterCode

open Draft

variable {c : Chart} {s : Scope} {f : Nat} {l : Listing} {depth : Nat}
  {kindOf : String → TokenKind} {args : List Value} {w : World} {waiting : List Waiting}

/-! ### One function -/

/-- An argument that a name was given stands at the place of the parameter. -/
theorem entered_spec {params : List String} {name : String} {v : Value}
    (h : Scope.entered params args name = some v) :
    ∃ i : Nat, params[i]? = some name ∧ args[i]? = some v := by
  have mem : (name, v) ∈ params.zip args := by
    rw [Scope.entered, List.lookup_eq_some_iff] at h
    obtain ⟨before, after, all, -⟩ := h
    rw [all]
    simp
  obtain ⟨i, lt, same⟩ := List.getElem_of_mem mem
  rw [List.getElem_zip, Prod.mk.injEq] at same
  rw [List.length_zip] at lt
  refine ⟨i, ?_, ?_⟩
  · rw [List.getElem?_eq_getElem (by omega), same.1]
  · rw [List.getElem?_eq_getElem (by omega), same.2]

/-- A journey that enters a function stands where the compilation of its body began. -/
theorem At.entered {names : List String} {d d1 : Draft} (h : Draft.Entered names d d1)
    (params : l.params = names.length) (args : List Value) (waiting : List Waiting) (w : World) :
    At f d1 ⟨Scope.entered names args, w⟩ ⟨⟨f, 0, l.entered args⟩, waiting, w⟩ where
  func := rfl
  pos := by rw [h.steps]; rfl
  world := rfl
  locals name v set' := by
    obtain ⟨i, named, given⟩ := entered_spec set'
    have lt : i < names.length := (List.getElem?_eq_some_iff.1 named).1
    have limit := h.limit
    refine ⟨Int16.ofNat i, (h.locals name _).2 ⟨i, named, rfl⟩, ?_⟩
    have number : numberOf (Int16.ofNat i) = i := numberOf_ofNat (by omega)
    have param : Listing.IsParam l.params (Int16.ofNat i) := by
      show numberOf (Int16.ofNat i) < l.params
      rw [number, params]
      exact lt
    show args[l.slot (Int16.ofNat i)]? = some v
    rw [Listing.slot_of_isParam param]
    exact (congrArg (args[·]?) number).trans given

/-- A function that is accepted has its parameters in its listing. -/
theorem params_of_ofFunction {c : Context} {params : List Token} {body : Stmt} {d d' : Draft}
    {count : Nat} (below : c.procedures.Below count) (steady : d.Steady)
    (compiled : ofFunction c params body d = .ok () d') :
    d'.graph.listing.params = params.length := by
  obtain ⟨d1, d2, entered, performed, linked⟩ := ofFunction_ok compiled
  have executes := ofStmt_executes below body (entered.sane steady) performed
  obtain ⟨-, -, -, -, paramCount⟩ := forM_link_ok linked executes.sane.bare.wired
  rw [← List.length_map (f := fun param : Token => param.lexeme c.source), ← entered.params]
  show d'.graph.paramCount.toNat = d1.graph.paramCount.toNat
  rw [paramCount, executes.onward.params]

/-- A function that is entered comes to what running its body comes to. -/
theorem answers_run (site : Site c s f l depth) {params : List Token} {body : Stmt}
    {d d' : Draft} (steady : d.Steady) (named : d.Named kindOf s.function?)
    (used : AllUsed (fun lexeme kind => kindOf lexeme = kind) s.source body.tokens)
    (compiled : ofFunction s.context params body d = .ok () d') (listing : d'.graph.listing = l)
    (constants : d'.constants.toList <+: c.constants.toList)
    (name : String) (args : List Value) (waiting : List Waiting) (w : World) :
    Journey.Answers c (depth + 1) ⟨⟨f, 0, l.entered args⟩, waiting, w⟩
      (s.run ⟨name, params.map fun param => param.lexeme s.source, body, s.source⟩ args w) := by
  obtain ⟨d1, d2, entered, performed, linked⟩ := ofFunction_ok compiled
  have sane : d1.Sane c.procedures.size := entered.sane steady
  have executes := ofStmt_executes site.below body sane performed
  obtain ⟨eq, -, -, rows, -⟩ := forM_link_ok linked executes.sane.bare.wired
  have steps := Graph.steps_congr rows
  have steps' : d2.graph.steps = l.steps := by
    rw [← listing, ← steps]
    rfl
  have params' : l.params = (params.map fun param => param.lexeme s.source).length := by
    rw [← listing, params_of_ofFunction site.below steady compiled, List.length_map]
  have constants' : d2.constants.toList <+: c.constants.toList := by
    rw [eq] at constants
    exact constants
  have named1 : d1.Named kindOf s.function? := by
    rw [entered.eq]
    exact named.quiet rfl rfl
  have does := performs site body d1 d2 _ _ sane named1 used performed
    (steps' ▸ List.prefix_rfl) constants' (At.entered entered params' args
      waiting w)
  unfold Scope.run
  dsimp only
  cases run : s.perform body
      ⟨Scope.entered (params.map fun param => param.lexeme s.source) args, w⟩ with
  | ok u scene =>
      have does := run ▸ does
      -- The body does not return, and there is no step behind it.
      obtain ⟨k, there, -, here⟩ := does
      refine ⟨k, there, ?_⟩
      have func : c.listings[k.visit.func]? = some l := by
        rw [here.func]
        exact site.known
      have behind : l.steps[k.visit.pos]? = none := by
        rw [here.pos, steps', List.getElem?_eq_none_iff]
      simp only [Journey.step, func, behind, here.world]
  | error stop scene =>
      have does := run ▸ does
      cases stop <;> exact does

/-! ### All functions -/

/-- The functions of a forest were compiled to the listings of a chart. -/
structure Charted (c : Chart) (table : Array Procedure) (functions : List Declaration)
    (kindOf : String → TokenKind) : Prop where
  procedures : c.procedures = table
  below : (Registry.ofTable table).Below table.size
  size : c.listings.length = functions.length
  orderly : ∀ l ∈ c.listings,
    l.Orderly c.constants.size c.listings.length c.procedures.size
  compiles : ∀ (g : Nat) (function : Declaration) (l : Listing), functions[g]? = some function →
    c.listings[g]? = some l →
    ∃ d d' params, d.Steady ∧
      d.Named kindOf (fun name => functions.findIdx? fun other => other.name = name) ∧
      AllUsed (fun lexeme kind => kindOf lexeme = kind) function.source function.body.tokens ∧
      function.params = params.map (fun param => param.lexeme function.source) ∧
      ofFunction ⟨.ofTable table, function.source⟩ params function.body d = .ok () d' ∧
      d'.graph.listing = l ∧ d'.constants.toList <+: c.constants.toList

variable {table : Array Procedure} {functions : List Declaration}

namespace Charted

/-- A function has as many parameters as its listing. -/
theorem arity (h : Charted c table functions kindOf) {g : Nat} {function : Declaration}
    (declared : functions[g]? = some function) :
    ∃ l, c.listings[g]? = some l ∧ l.params = function.params.length := by
  have lt : g < c.listings.length := by
    rw [h.size]
    exact (List.getElem?_eq_some_iff.1 declared).1
  have listed := List.getElem?_eq_getElem lt
  refine ⟨_, listed, ?_⟩
  obtain ⟨d, d', params, steady, -, -, eq, compiled, listing, -⟩ :=
    h.compiles g function _ declared listed
  rw [← listing, params_of_ofFunction h.below steady compiled, eq, List.length_map]

/-- Calls answer as they should, however many may be open. -/
theorem answers (h : Charted c table functions kindOf) (depth : Nat) {g : Nat}
    {function : Declaration} {l : Listing} (declared : functions[g]? = some function)
    (listed : c.listings[g]? = some l) (args : List Value) (waiting : List Waiting) (w : World) :
    Journey.Answers c depth ⟨⟨g, 0, l.entered args⟩, waiting, w⟩
      (evaluateCall table functions depth g args w) := by
  induction depth generalizing g function l args waiting w with
  | zero => exact ⟨_, .here, Nat.le_refl _⟩
  | succ depth ih =>
      obtain ⟨d, d', params, steady, named, used, eq, compiled, listing, constants⟩ :=
        h.compiles g function l declared listed
      have site : Site c ⟨table, functions, function.source,
          evaluateCall table functions depth⟩ g l depth := {
        known := listed
        orderly := h.orderly l (List.mem_of_getElem? listed)
        table := h.procedures
        below := h.procedures ▸ h.below
        arity := fun _ _ declared => h.arity declared
        answers := fun _ _ _ args waiting w declared listed _ => ih declared listed args waiting w }
      have runs := answers_run site steady named used compiled listing constants
        function.name args waiting w
      have unfolded : evaluateCall table functions (depth + 1) g args w =
          Scope.run ⟨table, functions, function.source, evaluateCall table functions depth⟩
            function args w := by
        simp only [evaluateCall, declared]
      rw [unfolded]
      have same : function = ⟨function.name,
          params.map fun param => param.lexeme function.source, function.body,
          function.source⟩ := by
        rw [← eq]
      rw [same]
      exact runs

end Charted

end RegisterCode
