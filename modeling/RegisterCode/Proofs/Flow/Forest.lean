import RegisterCode.Proofs.Flow.Functions

/-!
Compiling forests: the functions are numbered in the order of their declarations,
and there is a graph for each of them. All in all, a forest that is accepted
gives an orderly bundle.
-/

namespace RegisterCode

theorem Listing.Orderly.mono {l : Listing} {pool functions procedures pool' : Nat}
    (h : l.Orderly pool functions procedures) (le : pool ≤ pool') :
    l.Orderly pool' functions procedures :=
  { h with legal := fun k step found => (h.legal k step found).mono le (Nat.le_refl _) }

namespace Draft

variable {d d' : Draft} {procedures : Registry} {sources : Array String}
  {forest : List SourceUnit}

/-! ### Declaring -/

/-- Numbers the function that a unit declares, if it declares one. -/
def declareUnit (sources : Array String) (u : SourceUnit) : Drafting Unit :=
  match u.declaration? sources with
  | some function => declare function.name
  | none => pure ()

/-- All functions are numbered, and nothing else is done. -/
structure Declared (names : List String) (d : Draft) : Prop where
  functions : d.functions = names.length
  limit : names.length ≤ numberLimit
  main : d.main = names.findIdx? fun name => name = "main"
  globals : ∀ (name : String) (a : Address), d.globals[name]? = some a ↔
    ∃ f, (names.findIdx? fun other => other = name) = some f ∧ a = .immediate (Int16.ofNat f)
  constants : d.constants = #[]
  graphs : d.graphs = #[]

theorem declared_empty : Declared [] Draft.empty where
  functions := rfl
  limit := Nat.zero_le _
  main := rfl
  globals := by simp [Draft.empty]
  constants := rfl
  graphs := rfl

theorem findIdx?_snoc (names : List String) (name other : String) :
    ((names ++ [name]).findIdx? fun x => x = other) =
      ((names.findIdx? fun x => x = other) <|>
        if name = other then some names.length else none) := by
  rw [List.findIdx?_append]
  by_cases same : name = other <;> simp [same]

theorem Declared.declare {names : List String} (h : Declared names d) {name : String} {u : Unit}
    (run : declare name d = .ok u d') : Declared (names ++ [name]) d' := by
  have functions := h.functions
  unfold Draft.declare at run
  split at run
  · cases run
  · rename_i within
    dsimp only at run
    have main : (if name = "main" then d.main <|> some d.functions else d.main) =
        (names ++ [name]).findIdx? fun x => x = "main" := by
      rw [findIdx?_snoc, h.main, functions]
      split
      · rfl
      · cases names.findIdx? fun x => x = "main" <;> rfl
    have length : d.functions + 1 = (names ++ [name]).length := by simp [functions]
    have limit : (names ++ [name]).length ≤ numberLimit := by omega
    have known_iff : d.globals.contains name = true ↔
        (names.findIdx? fun other => other = name).isSome = true := by
      rw [Std.HashMap.contains_iff_mem, Std.HashMap.mem_iff_isSome_getElem?]
      constructor
      · intro known
        obtain ⟨a, known⟩ := Option.isSome_iff_exists.1 known
        obtain ⟨f, first, -⟩ := (h.globals name a).1 known
        rw [first]
        rfl
      · intro known
        obtain ⟨f, first⟩ := Option.isSome_iff_exists.1 known
        rw [(h.globals name _).2 ⟨f, first, rfl⟩]
        rfl
    split at run
    · rename_i known
      cases run
      refine ⟨length, limit, main, fun other a => ?_, h.constants, h.graphs⟩
      show d.globals[other]? = some a ↔ _
      rw [h.globals, findIdx?_snoc]
      cases first : names.findIdx? fun x => x = other with
      | some f => exact Iff.rfl
      | none =>
          have apart : name ≠ other := by
            rintro rfl
            rw [known_iff, first] at known
            cases known
          rw [if_neg apart]
          exact Iff.rfl
    · rename_i unknown
      cases run
      refine ⟨length, limit, main, fun other a => ?_, h.constants, h.graphs⟩
      show (d.globals.insert name (.immediate (Int16.ofNat d.functions)))[other]? = some a ↔ _
      rw [Std.HashMap.getElem?_insert, findIdx?_snoc]
      by_cases same : name = other
      · subst same
        have none : (names.findIdx? fun x => x = name) = none := by
          rw [known_iff, Bool.not_eq_true, Option.isSome_eq_false_iff, Option.isNone_iff_eq_none]
            at unknown
          exact unknown
        rw [none, if_pos (by simp), if_pos rfl, functions]
        simp [eq_comm]
      · rw [if_neg (by simpa using same), if_neg same, h.globals]
        cases names.findIdx? fun x => x = other <;> exact Iff.rfl

theorem declared_of_forM {names : List String} {u : Unit} (h : Declared names d)
    (run : forest.forM (declareUnit sources) d = .ok u d') :
    Declared (names ++ (declarations sources forest).map Declaration.name) d' := by
  induction forest generalizing d names with
  | nil =>
      cases run
      simpa [declarations] using h
  | cons unit rest ih =>
      rw [forM_cons] at run
      obtain ⟨_, d1, first, more⟩ := bind_eq_ok_iff.1 run
      rw [declareUnit] at first
      cases declared : unit.declaration? sources with
      | none =>
          rw [declared] at first
          cases first
          have after := ih h more
          rwa [declarations, List.filterMap_cons_none declared]
      | some function =>
          rw [declared] at first
          have after := ih (h.declare first) more
          rw [List.append_assoc] at after
          rwa [declarations, List.filterMap_cons_some declared]

theorem Declared.steady {names : List String} (h : Declared names d) : d.Steady where
  globals name a known := by
    obtain ⟨f, first, rfl⟩ := (h.globals name a).1 known
    refine .inl ⟨f, ?_, rfl⟩
    rw [h.functions]
    exact (List.findIdx?_eq_some_iff_getElem.1 first).1
  functions_le := h.functions ▸ h.limit
  constants_le := by
    rw [h.constants]
    exact Nat.zero_le _

/-! ### Compiling the declarations -/

/-- A function was compiled from one draft to another, and the graph is the
result. -/
structure Compiles (procedures : Registry) (f : Declaration) (g : Graph) (d d' : Draft) :
    Prop where
  run : ∃ params : List Token, f.params = params.map (fun param => param.lexeme f.source) ∧
    ofFunction ⟨procedures, f.source⟩ params f.body d = .ok () d'
  graph : g = d'.graph

/-- Declarations were compiled one after the other. There is a graph for every
function among them, and `Inv` held when it was begun. -/
structure Progress (procedures : Registry) (declared : List Declaration)
    (Inv : Draft → Prop) (d d' : Draft) : Prop where
  steady : d'.Steady
  inv : Inv d'
  functions : d'.functions = d.functions
  main : d'.main = d.main
  constants : d.constants.toList <+: d'.constants.toList
  graphs : ∃ gs : List Graph, d'.graphs.toList = d.graphs.toList ++ gs ∧
    gs.length = declared.length ∧
    ∀ (i : Nat) (f : Declaration) (g : Graph), declared[i]? = some f → gs[i]? = some g →
      ∃ d0 d1, d0.Steady ∧ Inv d0 ∧ d0.functions = d.functions ∧
        Compiles procedures f g d0 d1 ∧ d1.constants.toList <+: d'.constants.toList

/-- What a declaration that is accepted comes to. -/
theorem ofDeclaration_ok {c : Context} {s : Stmt} {u : Unit}
    (h : ofDeclaration c s d = .ok u d') :
    (∃ name params body d1, s = .function name params body ∧
        ofFunction c params body d = .ok () d1 ∧ d' = d1.close) ∨
      ((∀ name params body, s ≠ .function name params body) ∧ d' = d) := by
  cases s with
  | function name params body =>
      rw [ofDeclaration_function] at h
      cases run : ofFunction c params body d with
      | ok u d1 =>
          rw [run] at h
          cases h
          exact .inl ⟨name, params, body, d1, rfl, run, rfl⟩
      | error r d1 =>
          rw [run] at h
          cases h
  | imports name =>
      cases h
      exact .inr ⟨by simp, rfl⟩
  | stub name params =>
      have h : (if c.procedures.contains (name.lexeme c.source) then pure ()
        else throw (.unknownStub (name.lexeme c.source)) : Drafting Unit) d = .ok u d' := h
      split at h
      · cases h
        exact .inr ⟨by simp, rfl⟩
      · cases h
  | expr e | define name init | ifThen cond body | ifElse cond body body' | ret e
  | block items => cases h

theorem Finished.close {count : Nat} (h : Finished count d d') : d'.close.Steady :=
  ⟨h.steady.globals, h.steady.functions_le, h.steady.constants_le⟩

theorem progress_of_forM {count : Nat} (below : procedures.Below count) {Inv : Draft → Prop}
    (keeps : ∀ unit ∈ forest, ∀ d d', d.Steady → Inv d →
      ofDeclaration (unit.context procedures sources) unit.stmt d = .ok () d' → Inv d')
    (steady : d.Steady) (inv : Inv d) {u : Unit}
    (run : forest.forM (fun unit =>
      ofDeclaration (unit.context procedures sources) unit.stmt) d = .ok u d') :
    Progress procedures (declarations sources forest) Inv d d' := by
  induction forest generalizing d with
  | nil =>
      cases run
      exact ⟨steady, inv, rfl, rfl, List.prefix_rfl, [], (List.append_nil _).symm, rfl, by simp⟩
  | cons unit rest ih =>
      rw [forM_cons] at run
      obtain ⟨_, d1, first, more⟩ := bind_eq_ok_iff.1 run
      have inv1 := keeps unit List.mem_cons_self d d1 steady inv first
      have keeps' := fun unit mem => keeps unit (List.mem_cons_of_mem _ mem)
      rcases ofDeclaration_ok first with ⟨name, params, body, d2, stmt, compiled, rfl⟩ |
        ⟨other, rfl⟩
      · have finished := ofFunction_finished below steady compiled
        obtain ⟨steady', inv', functions, main, constants, gs, graphs, length, each⟩ :=
          ih keeps' finished.close inv1 more
        have declared : unit.declaration? sources = some ⟨name.lexeme (sources.getD unit.source ""),
            params.map fun param => param.lexeme (sources.getD unit.source ""), body,
            sources.getD unit.source ""⟩ := by
          rw [SourceUnit.declaration?, stmt]
        refine ⟨steady', inv', functions.trans finished.functions, main.trans finished.main,
          finished.constants.trans constants, d2.graph :: gs, ?_, ?_,
          fun i f g declaredAt at_ => ?_⟩
        · rw [graphs]
          show (d2.graphs.push d2.graph).toList ++ gs = _
          rw [Array.toList_push, finished.graphs, List.append_assoc]
          rfl
        · rw [declarations, List.filterMap_cons_some declared, List.length_cons, List.length_cons,
            length]
          rfl
        · rw [declarations, List.filterMap_cons_some declared] at declaredAt
          cases i with
          | zero =>
              rw [List.getElem?_cons_zero] at declaredAt at_
              cases declaredAt
              cases at_
              exact ⟨d, d2, steady, inv, rfl, ⟨⟨params, rfl, compiled⟩, rfl⟩, constants⟩
          | succ i =>
              rw [List.getElem?_cons_succ] at declaredAt at_
              obtain ⟨d0, d3, steady0, inv0, functions0, compiles, constants0⟩ :=
                each i f g declaredAt at_
              exact ⟨d0, d3, steady0, inv0, functions0.trans finished.functions, compiles,
                constants0⟩
      · have none : unit.declaration? sources = none := by
          unfold SourceUnit.declaration?
          cases stmt : unit.stmt with
          | function name params body => exact absurd stmt (other name params body)
          | _ => rfl
        rw [declarations, List.filterMap_cons_none none]
        exact ih keeps' steady inv1 more

/-! ### Forests -/

end Draft

/-- An orderly bundle whose graphs were drawn by compiling. -/
structure Bundle.Compiled (b : Bundle) (procedures : Nat) : Prop
    extends b.Orderly procedures where
  drawn : ∀ g ∈ b.graphs, Drawn g.rows
  fresh : ∀ g ∈ b.graphs, g.listing.Fresh

namespace Draft

variable {procedures : Registry} {sources : Array String} {forest : List SourceUnit}

theorem ofForest_eq (procedures : Registry) (sources : Array String) (forest : List SourceUnit) :
    ofForest procedures sources forest =
      forest.foldl (fun d unit =>
        d.attempt (ofDeclaration (unit.context procedures sources) unit.stmt))
        (forest.foldl (fun d unit => d.attempt (declareUnit sources unit)) Draft.empty) := by
  unfold ofForest
  dsimp only
  congr 2
  funext d unit
  rw [declareUnit, SourceUnit.functionName?, SourceUnit.declaration?]
  cases unit.stmt <;> rfl

theorem declareUnit_keeps (unit : SourceUnit) :
    KeepsTo SameRejections (declareUnit sources unit) := by
  unfold declareUnit
  split
  · exact declare_keeps _
  · exact .pure _

/-- The draft of a forest when its functions are declared. -/
def declaredIn (sources : Array String) (forest : List SourceUnit) : Draft :=
  forest.foldl (fun d unit => d.attempt (declareUnit sources unit)) Draft.empty

/-- The run behind a forest that is accepted. -/
theorem ofForest_runs {b : Bundle} (h : Bundle.ofForest procedures sources forest = .ok b) :
    Declared ((declarations sources forest).map Declaration.name) (declaredIn sources forest) ∧
      ∃ d', forest.forM (fun unit => ofDeclaration (unit.context procedures sources) unit.stmt)
          (declaredIn sources forest) = .ok () d' ∧
        b = ⟨d'.graphs, d'.constants, d'.main⟩ := by
  rw [Bundle.ofForest, bundle?] at h
  split at h
  · rename_i accepted
    cases h
    have accepted := Array.isEmpty_iff.1 accepted
    rw [ofForest_eq] at accepted ⊢
    obtain ⟨clean, compiled⟩ := forM_of_foldl_attempt
      (fun _ => ofDeclaration_keeps sameRejections_tame _ fun _ _ => trivial) accepted
    obtain ⟨-, declared⟩ := forM_of_foldl_attempt declareUnit_keeps clean
    exact ⟨declared_of_forM declared_empty declared, _, compiled, rfl⟩
  · cases h

theorem ofForest_ok {b : Bundle} (h : Bundle.ofForest procedures sources forest = .ok b) :
    ∃ d d', Declared ((declarations sources forest).map Declaration.name) d ∧
      forest.forM (fun unit => ofDeclaration (unit.context procedures sources) unit.stmt) d =
        .ok () d' ∧
      b = ⟨d'.graphs, d'.constants, d'.main⟩ := by
  obtain ⟨declared, d', compiled, eq⟩ := ofForest_runs h
  exact ⟨_, d', declared, compiled, eq⟩

/-- A forest that is accepted gives a bundle of graphs as they are drawn. -/
theorem compiled_of_ofForest {b : Bundle} {count : Nat} (below : procedures.Below count)
    (h : Bundle.ofForest procedures sources forest = .ok b) : b.Compiled count := by
  obtain ⟨d, d', declared, compiled, rfl⟩ := ofForest_ok h
  obtain ⟨-, -, -, -, -, gs, graphs, length, each⟩ :=
    progress_of_forM below (fun _ _ _ _ _ _ _ => trivial) declared.steady
      (show (fun _ => True) d from trivial) compiled
  rw [declared.graphs] at graphs
  have graphs : d'.graphs.toList = gs := graphs
  have size : d'.graphs.size = d.functions := by
    rw [← Array.length_toList, graphs, length, declared.functions, List.length_map]
  have finished : ∀ g ∈ d'.graphs, g.Forward ∧
      g.listing.Orderly d'.constants.size d'.graphs.size count ∧ Drawn g.rows ∧
      g.listing.Fresh := by
    intro g mem
    rw [← Array.mem_toList_iff, graphs] at mem
    obtain ⟨i, at_⟩ := List.mem_iff_getElem?.1 mem
    have lt : i < (declarations sources forest).length := by
      rw [← length]
      exact (List.getElem?_eq_some_iff.1 at_).1
    obtain ⟨d0, d1, steady, -, functions, ⟨⟨params, -, run⟩, rfl⟩, constants⟩ :=
      each i _ g (List.getElem?_eq_getElem lt) at_
    have finished := ofFunction_finished below steady run
    refine ⟨finished.forward, ?_, finished.drawn, finished.fresh⟩
    have le := constants.length_le
    rw [Array.length_toList, Array.length_toList] at le
    rw [size, ← functions, ← finished.functions]
    exact finished.orderly.mono le
  exact ⟨⟨fun g mem => (finished g mem).1, fun g mem => (finished g mem).2.1⟩,
    fun g mem => (finished g mem).2.2.1, fun g mem => (finished g mem).2.2.2⟩

/-- A forest that is accepted gives a graph for every function that is declared, and each
comes from compiling the function at its place. -/
theorem compiles_of_ofForest {b : Bundle} (h : Bundle.ofForest procedures sources forest = .ok b) :
    b.graphs.size = (declarations sources forest).length ∧
      ∀ (i : Nat) (f : Declaration) (g : Graph), (declarations sources forest)[i]? = some f →
        b.graphs[i]? = some g → ∃ d0 d1, d0.Steady ∧ Compiles procedures f g d0 d1 := by
  have below : procedures.Below 65536 := fun _ id _ => id.toNat_lt
  obtain ⟨d, d', declared, compiled, rfl⟩ := ofForest_ok h
  obtain ⟨-, -, -, -, -, gs, graphs, length, each⟩ :=
    progress_of_forM below (fun _ _ _ _ _ _ _ => trivial) declared.steady
      (show (fun _ => True) d from trivial) compiled
  rw [declared.graphs] at graphs
  have graphs : d'.graphs.toList = gs := graphs
  refine ⟨by rw [← Array.length_toList, graphs, length], fun i f g declaredAt at_ => ?_⟩
  rw [← Array.getElem?_toList, graphs] at at_
  obtain ⟨d0, d1, steady, -, -, compiles, -⟩ := each i f g declaredAt at_
  exact ⟨d0, d1, steady, compiles⟩

/-- A forest that is accepted gives an orderly bundle. -/
theorem orderly_of_ofForest {b : Bundle} {count : Nat} (below : procedures.Below count)
    (h : Bundle.ofForest procedures sources forest = .ok b) : b.Orderly count :=
  (compiled_of_ofForest below h).toOrderly

end Draft

/-! ### A sample -/

namespace Sample

def text : String := "twice n main x 21 42 0 print"

def token (kind : TokenKind) (start stop : Nat) : Token := ⟨kind, start, stop⟩

def atom (kind : TokenKind) (start stop : Nat) : Expr := .ofToken (token kind start stop)

/-- `twice(n)` returns `n + n`. -/
def twice : Stmt :=
  .function (token .identifier 0 5) [token .identifier 6 7]
    (.ret (.mkBinary .add (atom .identifier 6 7) (atom .identifier 6 7)))

/-- `main()` defines `x` as `twice(21)`. If that is 42, it prints `x` and returns 0, else
it returns `x`. -/
def main : Stmt :=
  .function (token .identifier 8 12) [] (.block [
    .define (token .identifier 13 14) (.mkCall (atom .identifier 0 5) [atom .int 15 17]),
    .ifElse (.mkBinary .equality (atom .identifier 13 14) (atom .int 18 20))
      (.block [.expr (.mkCall (atom .identifier 23 28) [atom .identifier 13 14]),
        .ret (atom .int 21 22)])
      (.ret (atom .identifier 13 14))])

def forest : List SourceUnit := [⟨twice, 0⟩, ⟨main, 0⟩]

/-- The graphs of the sample. -/
def bundle : Bundle where
  graphs := #[
    ⟨#[⟨#[.binary (.temp 1) (.binary .add) (.temp 0) (.temp 0), .actOn .ret (.temp 1)], none,
      none⟩], 1⟩,
    ⟨#[
      ⟨#[.copy (.temp 0) (.constant 0), .actOnTwo .call (.immediate 0) (.immediate 1),
        .copy (.temp 1) (.temp 0), .binary (.temp 2) (.binary .equ) (.temp 1) (.constant 1),
        .actOnTwo .jumpElse (.temp 2) (.immediate 0), .act .savePatch], some 1, some 2⟩,
      ⟨#[.copy (.temp 3) (.temp 1), .actOnTwo .nativeCall (.immediate 0) (.immediate 1),
        .actOn .ret (.constant 2), .actOn .jump (.immediate 0), .act .savePatch,
        .act .shufflePatch], some 3, none⟩,
      ⟨#[.act .nop, .act .patchJumpElse, .actOn .ret (.temp 1)], some 3, none⟩,
      ⟨#[.act .nop, .act .patchJump], none, none⟩], 0⟩]
  constants := #[.int 21, .int 42, .int 0]
  main := some 1

theorem slices : Text.slice? text 0 5 = some "twice" ∧ Text.slice? text 6 7 = some "n" ∧
    Text.slice? text 8 12 = some "main" ∧ Text.slice? text 13 14 = some "x" ∧
    Text.slice? text 15 17 = some "21" ∧ Text.slice? text 18 20 = some "42" ∧
    Text.slice? text 21 22 = some "0" ∧ Text.slice? text 23 28 = some "print" := by decide

theorem numbers : Text.readInt32? "21" = some 21 ∧ Text.readInt32? "42" = some 42 ∧
    Text.readInt32? "0" = some 0 := by decide

theorem procedures : (Registry.ofTable Procedure.standard).id? "n" = none ∧
    (Registry.ofTable Procedure.standard).id? "x" = none ∧
    (Registry.ofTable Procedure.standard).id? "twice" = none ∧
    (Registry.ofTable Procedure.standard).id? "print" = some 0 := by
  refine ⟨?_, ?_, ?_, by cbv⟩ <;> exact Registry.id?_eq_none (by decide +kernel)

open Draft

theorem accepted : Bundle.ofForest (.ofTable Procedure.standard) #[text] forest = .ok bundle := by
  simp [Bundle.ofForest, Draft.ofForest, forest, twice, main, SourceUnit.functionName?,
    SourceUnit.context, token, atom, Token.lexeme, Span.text, slices, numbers, procedures,
    Registry.contains, attempt, declare, Draft.empty, numberLimit, numberRange,
    ofDeclaration_function, ofFunction, ofParams_eq, bindParam, newTemp, bindLocal, enter, close,
    Draft.graph, bundle?, bind_apply, ofStmt, ofBlock, ofExpr, ofArgs, ofLiteral, ofDefinition,
    ofCallee, ofName, ofCall, copyToTemp, openBranch, land, intern, lookup?, push, newBlock,
    newestBlock, linkLater, link, Expr.mkBinary, Expr.mkCall, Expr.ofToken, Expr.span, Expr.text,
    Operator.binary?, Callee.op, Callee.id, Graph.empty, Graph.addBlock, Graph.pushNewest,
    Graph.push, Graph.newest?, Graph.canLink, Graph.link, Block.push, Block.empty, Block.link,
    Block.hasRoom, bundle, Step.copy, Std.HashMap.getElem_insert, Address.immediate, Address.temp,
    Address.constant]

/-- Its code. -/
def program : Program where
  chunks := #[
    #[.make .push [.register 0], .make .push [.register 0], .make (.binary .add) [],
      .make .mov [.register 1, .stack], .make .ret [.register 1]],
    #[.make .mov [.register 0, .constant 0], .make .call [.immediate 0, .immediate 1],
      .make .mov [.register 1, .register 0], .make .push [.register 1],
      .make .push [.constant 1], .make (.binary .equ) [], .make .mov [.register 2, .stack],
      .make .jumpElse [.register 2, .immediate 12], .make .mov [.register 3, .register 1],
      .make .nativeCall [.immediate 0, .immediate 1], .make .ret [.constant 2],
      .make .jump [.immediate 14], .make .nop [], .make .ret [.register 1], .make .nop []]]
  constants := #[.int 21, .int 42, .int 0]
  entry := some 1

theorem orderly : bundle.Orderly 65536 :=
  orderly_of_ofForest (fun _ id _ => id.toNat_lt) accepted

theorem emitted : Program.ofBundle bundle = .ok program := by
  rw [orderly.ofBundle_eq (by decide)]
  decide +kernel

end Sample
end RegisterCode
