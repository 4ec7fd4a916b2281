import RegisterCode.Proofs.Flow.Passage

/-!
What literals and names are compiled to. The functions and the literals of all kinds share one
table of names, which lasts for the whole forest and is looked into before the locals: a lexeme
stands for the first function of that name, else for the literal that was the first to be
compiled under it, else for a local.
-/

namespace RegisterCode

/-- The number of the first function with a name. -/
def function? (functions : List Declaration) (name : String) : Option Nat :=
  functions.findIdx? fun f => f.name = name

/-- The address is that of a constant of the pool. -/
def Pooled (constants : Array Value) (v : Value) (a : Address) : Prop :=
  ∃ i, i < numberRange ∧ constants[i]? = some v ∧ a = .constant (Int16.ofNat i)

theorem Pooled.mono {constants constants' : Array Value} {v : Value} {a : Address}
    (h : Pooled constants v a) (le : constants.toList <+: constants'.toList) :
    Pooled constants' v a := by
  obtain ⟨i, small, found, same⟩ := h
  rw [← Array.getElem?_toList] at found
  obtain ⟨lt, -⟩ := List.getElem?_eq_some_iff.1 found
  refine ⟨i, small, ?_, same⟩
  obtain ⟨more, split⟩ := le
  rw [← Array.getElem?_toList, ← split, List.getElem?_append_left lt]
  exact found

/-- The lexeme and the kind of a literal that is not an identifier. -/
def Expr.literal? (source : String) : Expr → Option (String × TokenKind)
  | .literal token _ =>
    if token.kind = .identifier then none else some (token.lexeme source, token.kind)
  | .call .. | .unary .. | .binary .. | .assign .. => none

def Task.literal? (t : Task) : Option (String × TokenKind) := t.expr.literal? t.place.source

namespace Draft

variable {functions? : String → Option Nat} {seen : List (String × TokenKind)} {d d' d'' : Draft}
  {c : Context} {a : Address} {procedures : Nat} {name lexeme : String} {kind : TokenKind}

theorem globals_copied {as : List Address} : (d.copied as).globals = d.globals := by
  induction as generalizing d with
  | nil => rfl
  | cons a as ih =>
      rw [copied, ih]
      rfl

theorem constants_copied {as : List Address} : (d.copied as).constants = d.constants := by
  induction as generalizing d with
  | nil => rfl
  | cons a as ih =>
      rw [copied, ih]
      rfl

theorem globals_called {callee : Callee} {as : List Address} :
    (d.called callee as).globals = d.globals := globals_copied

theorem constants_called {callee : Callee} {as : List Address} :
    (d.called callee as).constants = d.constants := constants_copied

/-- What is known everywhere: the functions by their numbers, and the literals seen so far by
the constant of the first with that lexeme, if no function has it for its name. -/
structure Interned (functions? : String → Option Nat) (seen : List (String × TokenKind))
    (d : Draft) : Prop where
  function : ∀ (name : String) (f : Nat), functions? name = some f →
    d.globals[name]? = some (.immediate (Int16.ofNat f))
  literal : ∀ (name : String) (kind : TokenKind), functions? name = none →
    seen.lookup name = some kind →
    ∃ v a, kind.value? name = some v ∧ Pooled d.constants v a ∧ d.globals[name]? = some a
  unknown : ∀ name : String, functions? name = none → seen.lookup name = none →
    d.globals[name]? = none

namespace Interned

theorem quiet (h : d.Interned functions? seen) (globals : d'.globals = d.globals)
    (constants : d'.constants = d.constants) : d'.Interned functions? seen where
  function := by rw [globals]; exact h.function
  literal := by rw [globals, constants]; exact h.literal
  unknown := by rw [globals]; exact h.unknown

/-- A literal that was seen already, or that has the name of a function, changes nothing. -/
theorem known (h : d.Interned functions? seen) (known : d.globals[lexeme]? = some a) :
    d.Interned functions? (seen ++ [(lexeme, kind)]) := by
  have before (name : String) (free : functions? name = none) :
      (seen ++ [(lexeme, kind)]).lookup name = seen.lookup name := by
    rw [List.lookup_append]
    cases found : seen.lookup name with
    | some other => rfl
    | none =>
        have unknown := h.unknown name free found
        have apart : (name == lexeme) = false := by
          rw [beq_eq_false_iff_ne]
          rintro rfl
          rw [unknown] at known
          cases known
        rw [Option.none_or, List.lookup_cons, apart]
        rfl
  refine ⟨h.function, fun name kind free seen => ?_, fun name free seen => ?_⟩
  · rw [before name free] at seen
    exact h.literal name kind free seen
  · rw [before name free] at seen
    exact h.unknown name free seen

/-- A literal that is new gets the next constant. -/
theorem insert (h : d.Interned functions? seen) {v : Value} (value : kind.value? lexeme = some v)
    (unknown : d.globals[lexeme]? = none) (within : d.constants.size < numberRange) :
    Interned functions? (seen ++ [(lexeme, kind)]) { d with
      constants := d.constants.push v
      globals := d.globals.insert lexeme (.constant (Int16.ofNat d.constants.size)) } := by
  have free : functions? lexeme = none := by
    cases numbered : functions? lexeme with
    | none => rfl
    | some f =>
        rw [h.function lexeme f numbered] at unknown
        cases unknown
  have unseen : seen.lookup lexeme = none := by
    cases found : seen.lookup lexeme with
    | none => rfl
    | some other =>
        obtain ⟨v, a, -, -, known⟩ := h.literal lexeme other free found
        rw [unknown] at known
        cases known
  have lookup (name : String) : (seen ++ [(lexeme, kind)]).lookup name =
      if lexeme = name then some kind else seen.lookup name := by
    rw [List.lookup_append]
    by_cases same : lexeme = name
    · subst same
      rw [unseen, if_pos rfl, Option.none_or, List.lookup_cons_self]
    · have apart : (name == lexeme) = false := beq_eq_false_iff_ne.2 (Ne.symm same)
      rw [if_neg same, List.lookup_cons, apart]
      exact Option.or_none
  have globals (name : String) :
      (d.globals.insert lexeme (.constant (Int16.ofNat d.constants.size)))[name]? =
        if lexeme = name then some (.constant (Int16.ofNat d.constants.size))
        else d.globals[name]? := by
    simp only [Std.HashMap.getElem?_insert, beq_iff_eq]
  have pushed : d.constants.toList <+: (d.constants.push v).toList := by simp
  refine ⟨fun name f numbered => ?_, fun name kind' free seen => ?_, fun name free seen => ?_⟩
  · have other : lexeme ≠ name := by
      rintro rfl
      rw [free] at numbered
      cases numbered
    exact (globals name).trans ((if_neg other).trans (h.function name f numbered))
  · rw [lookup] at seen
    split at seen
    · rename_i same
      subst same
      cases seen
      have here : Pooled (d.constants.push v) v (.constant (Int16.ofNat d.constants.size)) :=
        ⟨d.constants.size, within, by simp, rfl⟩
      exact ⟨v, _, value, here, (globals lexeme).trans (if_pos rfl)⟩
    · rename_i other
      obtain ⟨v', a, value', pooled, known⟩ := h.literal name kind' free seen
      exact ⟨v', a, value', pooled.mono pushed,
        (globals name).trans ((if_neg other).trans known)⟩
  · rw [lookup] at seen
    split at seen
    · cases seen
    · rename_i other
      exact (globals name).trans ((if_neg other).trans (h.unknown name free seen))

/-- When the functions have been declared, no literal has been seen. -/
theorem of_declared {functions : List Declaration}
    (h : Declared (functions.map Declaration.name) d) :
    d.Interned (RegisterCode.function? functions) [] := by
  have numbered (name : String) :
      ((functions.map Declaration.name).findIdx? fun other => other = name) =
        RegisterCode.function? functions name := by
    rw [List.findIdx?_map]
    rfl
  refine ⟨fun name f first => ?_, fun name kind _ seen => ?_, fun name free _ => ?_⟩
  · exact (h.globals name _).2 ⟨f, (numbered name).trans first, rfl⟩
  · cases seen
  · cases known : d.globals[name]? with
    | none => rfl
    | some a =>
        obtain ⟨f, first, -⟩ := (h.globals name a).1 known
        rw [numbered, free] at first
        cases first

/-- What finishing a task makes known. -/
theorem stage (h : d.Interned functions? seen) {t : Task} (stage : Stage procedures t a d d') :
    d'.Interned functions? (seen ++ t.literal?.toList) := by
  obtain ⟨⟨procedures, source⟩, scope, e, d0⟩ := t
  rw [Task.literal?]
  cases stage.finish with
  | literal run =>
      rename_i token span
      dsimp only at run h ⊢
      rcases ofLiteral_ok run with ⟨v, value, interned⟩ | ⟨identifier, -, -, rfl⟩
      · have other : token.kind ≠ .identifier := by
          intro identifier
          rw [identifier] at value
          cases value
        rw [Expr.literal?, if_neg other, Option.toList_some]
        rcases intern_ok interned with ⟨rfl, known⟩ | ⟨unknown, within, rfl, rfl⟩
        · exact h.known known
        · exact h.insert value unknown within
      · rw [Expr.literal?, if_pos identifier, Option.toList_none, List.append_nil]
        exact h
  | call =>
      rw [Expr.literal?, Option.toList_none, List.append_nil]
      exact h.quiet globals_called constants_called
  | unary | binary | assign =>
      rw [Expr.literal?, Option.toList_none, List.append_nil]
      exact h.quiet rfl rfl

theorem course {scope scope' : List (String × Address)} {tasks : List Task}
    (h : d.Interned functions? seen) (course : Course procedures c scope d tasks scope' d') :
    d'.Interned functions? (seen ++ tasks.filterMap Task.literal?) := by
  induction course generalizing seen with
  | nil => simpa using h
  | finish stage _ ih =>
      rw [filterMap_cons_eq, ← List.append_assoc]
      exact ih (h.stage stage)
  | move move _ _ ih => exact ih (h.quiet move.globals move.constants)

end Interned

/-! ### Forests -/

/-- A function is entered with what is known everywhere. -/
theorem Entered.interned {names : List String} (entered : Entered names d d')
    (h : d.Interned functions? seen) : d'.Interned functions? seen :=
  h.quiet (by rw [entered.eq]; rfl) (by rw [entered.eq]; rfl)

variable {registry : Registry} {fs : List Declaration} {gs : List Graph} {more : List (List Task)}

/-- There is a task for every expression of the functions. -/
theorem Passage.sites (h : Passage registry procedures d fs gs more d') :
    more.flatten.map Task.site =
      fs.flatMap fun f => f.body.parts.map fun e => (⟨registry, f.source⟩, e) := by
  induction h with
  | nil => rfl
  | cons written _ ih =>
      rw [List.flatten_cons, List.map_append, written.sites, ih, List.flatMap_cons]

theorem Passage.constants (h : Passage registry procedures d fs gs more d') :
    d.constants.toList <+: d'.constants.toList := by
  induction h with
  | nil => exact List.prefix_rfl
  | cons written _ ih => exact written.constants_prefix.trans ih

/-- What is known when a task is finished: the literals of the tasks before, wherever they
stand, and the names of the scope. -/
theorem Passage.interned (h : Passage registry procedures d fs gs more d')
    (known : d.Interned functions? seen) {before after : List Task} {t : Task}
    (split : more.flatten = before ++ t :: after) :
    ∃ a d1 d2, Stage procedures t a d1 d2 ∧
      d1.Interned functions? (seen ++ before.filterMap Task.literal?) ∧
      (∀ entry ∈ t.scope, d1.locals[entry.1]? = some entry.2) ∧
      d2.constants.toList <+: d'.constants.toList := by
  induction h generalizing seen before with
  | nil => simp at split
  | @cons d d' d'' d1 d2 f fs g gs tasks more written rest ih =>
      obtain ⟨scope, course⟩ := written.course
      have entered := written.entered.interned known
      -- The task is one of this function, or one of the functions behind it.
      have there (between : List Task) (eq : before = tasks ++ between)
          (eq' : more.flatten = between ++ t :: after) := by
        have next := (entered.course course).quiet written.globals written.constants
        have found := ih next eq'
        rwa [List.append_assoc, ← List.filterMap_append, ← eq] at found
      rw [List.flatten_cons] at split
      rcases List.append_eq_append_iff.1 split with ⟨between, eq, eq'⟩ | ⟨here, eq, eq'⟩
      · exact there between eq eq'
      · cases here with
        | nil => exact there [] (by simpa using eq.symm) (by simpa using eq'.symm)
        | cons first others =>
            cases eq'
            subst eq
            obtain ⟨-, d3, a, d4, earlier, stage, later⟩ := course.split
            refine ⟨a, d3, d4, stage, entered.course earlier, ?_, ?_⟩
            · exact earlier.bound written.entered.bound
            · have onward := later.onward.constants
              rw [← written.constants] at onward
              exact onward.trans rest.constants

end Draft

/-- What a token is compiled to when the literals `seen` were compiled before it. -/
structure Resolved (functions : List Declaration) (constants : Array Value)
    (seen : List (String × TokenKind)) (t : Task) (token : Token) (a : Address) : Prop where
  /-- A function with that name comes before everything else. -/
  function : ∀ f, function? functions (token.lexeme t.place.source) = some f →
    a = .immediate (Int16.ofNat f)
  /-- A literal has the value that its own kind denotes, if no literal of another kind was
  compiled under its lexeme before. -/
  own : function? functions (token.lexeme t.place.source) = none → token.kind ≠ .identifier →
    (∀ kind, (token.lexeme t.place.source, kind) ∈ seen → kind = token.kind) →
    ∃ v, token.kind.value? (token.lexeme t.place.source) = some v ∧ Pooled constants v a
  /-- The first literal of a lexeme is what counts, also for identifiers. -/
  first : function? functions (token.lexeme t.place.source) = none →
    ∀ kind, (seen ++ t.literal?.toList).lookup (token.lexeme t.place.source) = some kind →
    ∃ v, kind.value? (token.lexeme t.place.source) = some v ∧ Pooled constants v a
  /-- An identifier is a parameter or a local, if no literal was compiled under its lexeme. -/
  bound : function? functions (token.lexeme t.place.source) = none → token.kind = .identifier →
    seen.lookup (token.lexeme t.place.source) = none →
    ∀ temp, (token.lexeme t.place.source, temp) ∈ t.scope → a = temp

/-- The token of a task is compiled as the names say that are known when it is. -/
theorem Draft.Stage.resolved {count : Nat} {functions : List Declaration}
    {seen : List (String × TokenKind)} {t : Task} {token : Token} {span : Span} {a : Address}
    {d d' : Draft} (stage : Draft.Stage count t a d d')
    (known : d.Interned (function? functions) seen)
    (scope : ∀ entry ∈ t.scope, d.locals[entry.1]? = some entry.2)
    (is : t.expr = .literal token span) : Resolved functions d'.constants seen t token a := by
  have known' := known.stage stage
  obtain ⟨place, names, e, d0⟩ := t
  obtain rfl : e = .literal token span := is
  cases stage.finish with
  | literal run =>
      dsimp only at run known scope known'
      -- What is known everywhere comes first.
      have global (x : Address) (h : d'.globals[token.lexeme place.source]? = some x) :
          a = x := by
        rcases ofLiteral_ok run with ⟨v, -, interned⟩ | ⟨-, -, looked, rfl⟩
        · rcases intern_ok interned with ⟨rfl, found⟩ | ⟨-, -, rfl, rfl⟩
          · rw [found] at h
            exact Option.some.inj h
          · rw [Std.HashMap.getElem?_insert_self] at h
            exact Option.some.inj h
        · rw [lookup?, h] at looked
          exact (Option.some.inj looked).symm
      have first (free : function? functions (token.lexeme place.source) = none)
          (kind : TokenKind)
          (seen : (seen ++ (Expr.literal? place.source (.literal token span)).toList).lookup
            (token.lexeme place.source) = some kind) :
          ∃ v, kind.value? (token.lexeme place.source) = some v ∧ Pooled d'.constants v a := by
        obtain ⟨v, x, value, pooled, found⟩ := known'.literal _ kind free seen
        exact ⟨v, value, global x found ▸ pooled⟩
      refine ⟨fun f numbered => global _ (known'.function _ f numbered),
        fun free other alike => ?_, first, fun free identifier unseen temp mem => ?_⟩
      · dsimp only at free alike
        have literal : (Expr.literal? place.source (.literal token span)) =
            some (token.lexeme place.source, token.kind) := if_neg other
        rw [literal] at first
        refine first free token.kind ?_
        rw [List.lookup_append]
        cases found : seen.lookup (token.lexeme place.source) with
        | none => exact List.lookup_cons_self
        | some kind =>
            obtain ⟨before, after, eq, -⟩ := List.lookup_eq_some_iff.1 found
            rw [alike kind (by simp [eq])]
            rfl
      · dsimp only at free unseen mem
        rcases ofLiteral_ok run with ⟨v, value, -⟩ | ⟨-, -, looked, rfl⟩
        · rw [identifier] at value
          cases value
        · rw [lookup?, known.unknown _ free unseen, scope _ mem] at looked
          exact (Option.some.inj looked).symm

theorem Resolved.mono {functions : List Declaration} {constants constants' : Array Value}
    {seen : List (String × TokenKind)} {t : Task} {token : Token} {a : Address}
    (h : Resolved functions constants seen t token a)
    (le : constants.toList <+: constants'.toList) :
    Resolved functions constants' seen t token a where
  function := h.function
  own free other alike :=
    have ⟨v, value, pooled⟩ := h.own free other alike
    ⟨v, value, pooled.mono le⟩
  first free kind found :=
    have ⟨v, value, pooled⟩ := h.first free kind found
    ⟨v, value, pooled.mono le⟩
  bound := h.bound

/-- How the literals and the names of a forest that is accepted are compiled: every expression
of its functions is a task, in this order, and every atom among them has an address. -/
theorem literals_of_accepted {procedures : Registry} {sources : Array String}
    {forest : List SourceUnit} {b : Bundle}
    (accepted : Bundle.ofForest procedures sources forest = .ok b) :
    let functions := declarations sources forest
    let tasks := (Tasks.ofForest procedures sources forest).flatten
    tasks.map Task.site =
      functions.flatMap (fun f => f.body.parts.map fun e => (⟨procedures, f.source⟩, e)) ∧
    ∀ (before after : List Task) (t : Task) (token : Token) (span : Span),
      tasks = before ++ t :: after → t.expr = .literal token span →
      ∃ a, t.address? = some a ∧
        Resolved functions b.constants (before.filterMap Task.literal?) t token a := by
  intro functions tasks
  obtain ⟨declared, -, d', passage, constants⟩ := Draft.passage_of_ofForest accepted
  refine ⟨passage.sites, fun before after t token span split is => ?_⟩
  obtain ⟨a, d1, d2, stage, known, scope, later⟩ :=
    passage.interned (.of_declared declared) split
  refine ⟨a, Task.address?_of_ok stage.run, ?_⟩
  rw [constants]
  exact (stage.resolved known scope is).mono later

open Sample in
theorem literals_of_sample :
    Bundle.ofForest (.ofTable Procedure.standard) #[text] forest = .ok bundle ∧
    ∃ t ∈ (Tasks.ofForest (.ofTable Procedure.standard) #[text] forest).flatten,
      t.expr = atom .int 15 17 ∧
      ∃ a, t.address? = some a ∧ Pooled bundle.constants (.int 21) a := by
  obtain ⟨sites, each⟩ := literals_of_accepted accepted
  obtain ⟨before, more, split, sites', sites''⟩ := List.map_eq_append_iff.1
    (sites.trans (List.take_append_drop 3 _).symm)
  obtain ⟨t, after, rfl, site, -⟩ := List.map_eq_cons_iff.1 sites''
  have expr : t.expr = atom .int 15 17 := congrArg Prod.snd site
  have place : t.place.source = text := congrArg (fun x : Context × Expr => x.1.source) site
  obtain ⟨a, address, resolved⟩ := each before after t _ _ split expr
  have lexeme : Token.lexeme (token .int 15 17) t.place.source = "21" := by
    rw [place]
    decide
  have unseen : before.filterMap Task.literal? = [] := by
    have literals : before.filterMap Task.literal? =
        (before.map Task.site).filterMap fun site => site.2.literal? site.1.source := by
      rw [List.filterMap_map]
      rfl
    rw [literals, sites']
    rfl
  obtain ⟨v, value, pooled⟩ := resolved.own (by rw [lexeme]; decide) (by decide)
    (by simp [unseen])
  rw [lexeme] at value
  obtain rfl : v = .int 21 := by
    have same : TokenKind.int.value? "21" = some (.int 21) := by decide
    exact Option.some.inj (value.symm.trans same)
  exact ⟨accepted, t, by simp [split], expr, a, address, pooled⟩

/-! ### One lexeme for several -/

namespace Shared

open Sample

def text : String := "one first nan endless main inf 1"

/-- The function at a place of the text, which returns the value of an atom. -/
def giving (start stop : Nat) (params : List Token) (e : Expr) : SourceUnit :=
  ⟨.function (token .identifier start stop) params (.ret e), 0⟩

/-- `one()` returns the integer `1`, `first()` the floating-point number `1`, `nan()` the
floating-point number `nan` and `endless()` the floating-point number `inf`. `main(inf)` returns
what is called `inf`. -/
def forest : List SourceUnit :=
  [giving 0 3 [] (atom .int 31 32), giving 4 9 [] (atom .float 31 32),
    giving 10 13 [] (atom .float 10 13), giving 14 21 [] (atom .float 27 30),
    giving 22 26 [token .identifier 27 30] (atom .identifier 27 30)]

def bundle : Bundle where
  graphs := #[⟨#[⟨#[.actOn .ret (.constant 0)], none, none⟩], 0⟩,
    ⟨#[⟨#[.actOn .ret (.constant 0)], none, none⟩], 0⟩,
    ⟨#[⟨#[.actOn .ret (.immediate 2)], none, none⟩], 0⟩,
    ⟨#[⟨#[.actOn .ret (.constant 1)], none, none⟩], 0⟩,
    ⟨#[⟨#[.actOn .ret (.constant 1)], none, none⟩], 1⟩]
  constants := #[.int 1, .float ⟨0x7ff0000000000000⟩]
  main := some 4

theorem slices : Text.slice? text 0 3 = some "one" ∧ Text.slice? text 4 9 = some "first" ∧
    Text.slice? text 10 13 = some "nan" ∧ Text.slice? text 14 21 = some "endless" ∧
    Text.slice? text 22 26 = some "main" ∧ Text.slice? text 27 30 = some "inf" ∧
    Text.slice? text 31 32 = some "1" := by decide

theorem numbers : Text.readInt32? "1" = some 1 ∧
    Decimal.read? "1" = some ⟨0x3ff0000000000000⟩ ∧
    Decimal.read? "nan" = some ⟨0x7ff8000000000000⟩ ∧
    Decimal.read? "inf" = some ⟨0x7ff0000000000000⟩ := by decide +kernel

theorem procedures : (Registry.ofTable Procedure.standard).id? "inf" = none :=
  Registry.id?_eq_none (by decide +kernel)

open Draft in
theorem accepted : Bundle.ofForest (.ofTable Procedure.standard) #[text] forest = .ok bundle := by
  simp [Bundle.ofForest, Draft.ofForest, forest, giving, SourceUnit.functionName?,
    SourceUnit.context, token, atom, Token.lexeme, Span.text, slices, numbers, procedures,
    Registry.contains, attempt, declare, Draft.empty, numberLimit, numberRange,
    ofDeclaration_function, ofFunction, ofParams_eq, bindParam, newTemp, bindLocal, enter, close,
    Draft.graph, bundle?, bind_apply, ofStmt, ofExpr, ofLiteral, intern, lookup?, Draft.push,
    Expr.ofToken, Graph.empty, Graph.addBlock, Graph.pushNewest, Graph.push, Block.push,
    Block.empty, bundle, Std.HashMap.getElem_insert, Address.immediate, Address.temp,
    Address.constant]

open Draft in
/-- Where the values of the atoms are found. -/
theorem addresses : (Tasks.ofForest (.ofTable Procedure.standard) #[text] forest).flatten.map
    (fun t => (t.place.source, t.scope, t.expr, t.address?)) =
      [(text, [], atom .int 31 32, some (.constant 0)),
        (text, [], atom .float 31 32, some (.constant 0)),
        (text, [], atom .float 10 13, some (.immediate 2)),
        (text, [], atom .float 27 30, some (.constant 1)),
        (text, [("inf", .temp 0)], atom .identifier 27 30, some (.constant 1))] := by
  simp [Tasks.ofForest, Tasks.ofUnits, Tasks.ofStmt, Tasks.ofExpr, Tasks.ofParams, Task.address?,
    declaredIn, declareUnit, SourceUnit.declaration?, SourceUnit.context, leaves, forest, giving,
    token, atom, Token.lexeme, Span.text, slices, numbers, procedures, Registry.contains, attempt,
    declare, Draft.empty, numberLimit, numberRange, ofDeclaration_function, ofFunction,
    ofParams_eq, bindParam, newTemp, bindLocal, enter, close, Draft.graph, bind_apply, ofStmt,
    ofExpr, ofLiteral, intern, lookup?, Draft.push, Expr.ofToken, Graph.empty, Graph.addBlock,
    Graph.pushNewest, Graph.push, Block.push, Block.empty, Std.HashMap.getElem_insert,
    Address.immediate, Address.temp, Address.constant]

end Shared

/-- Literals and names can get in each other's way: the floating-point number `1` is the integer
that was compiled before it, a number is a function of the same name, and a parameter is a number
of another function. -/
theorem lexemes_are_shared :
    let procedures := Registry.ofTable Procedure.standard
    let functions := declarations #[Shared.text] Shared.forest
    let tasks := (Tasks.ofForest procedures #[Shared.text] Shared.forest).flatten
    Bundle.ofForest procedures #[Shared.text] Shared.forest = .ok Shared.bundle ∧
    (¬ ∀ t ∈ tasks, ∀ token span, t.expr = .literal token span → token.kind ≠ .identifier →
      function? functions (token.lexeme t.place.source) = none →
      ∃ v a, token.kind.value? (token.lexeme t.place.source) = some v ∧ t.address? = some a ∧
        Pooled Shared.bundle.constants v a) ∧
    (¬ ∀ t ∈ tasks, ∀ token span, t.expr = .literal token span → token.kind ≠ .identifier →
      ∃ v a, t.address? = some a ∧ Pooled Shared.bundle.constants v a) ∧
    ¬ ∀ t ∈ tasks, ∀ token span temp, t.expr = .literal token span → token.kind = .identifier →
      procedures.contains (token.lexeme t.place.source) = false →
      function? functions (token.lexeme t.place.source) = none →
      (token.lexeme t.place.source, temp) ∈ t.scope → t.address? = some temp := by
  intro procedures functions tasks
  have addresses := Shared.addresses
  have at_ {i : Nat} {x : String × List (String × Address) × Expr × Option Address}
      (is : (tasks.map fun t => (t.place.source, t.scope, t.expr, t.address?))[i]? = some x) :
      ∃ t ∈ tasks, t.place.source = x.1 ∧ t.scope = x.2.1 ∧ t.expr = x.2.2.1 ∧
        t.address? = x.2.2.2 := by
    rw [List.getElem?_map] at is
    obtain ⟨t, found, rfl⟩ := Option.map_eq_some_iff.1 is
    exact ⟨t, List.mem_of_getElem? found, rfl, rfl, rfl, rfl⟩
  refine ⟨Shared.accepted, fun claim => ?_, fun claim => ?_, fun claim => ?_⟩
  · obtain ⟨t, mem, place, -, expr, address⟩ := at_ (i := 1) (by rw [addresses]; rfl)
    have lexeme : Token.lexeme (Sample.token .float 31 32) t.place.source = "1" := by
      rw [place]
      decide
    obtain ⟨v, a, value, address', i, -, pooled, rfl⟩ :=
      claim t mem _ _ expr (by decide) (by rw [lexeme]; decide)
    -- The constant at the address is an integer, and the token denotes none.
    rw [address] at address'
    rw [lexeme] at value
    change (Decimal.read? "1").map Value.float = some v at value
    obtain ⟨x, -, rfl⟩ := Option.map_eq_some_iff.1 value
    match i, pooled with
    | 0, pooled => cases pooled
    | 1, _ => cases address'
  · obtain ⟨t, mem, -, -, expr, address⟩ := at_ (i := 2) (by rw [addresses]; rfl)
    obtain ⟨v, a, address', i, -, -, rfl⟩ := claim t mem _ _ expr (by decide)
    rw [address] at address'
    cases address'
  · obtain ⟨t, mem, place, scope, expr, address⟩ := at_ (i := 4) (by rw [addresses]; rfl)
    have lexeme : Token.lexeme (Sample.token .identifier 27 30) t.place.source = "inf" := by
      rw [place]
      decide
    have address' := claim t mem _ _ (.temp 0) expr rfl
      (by rw [lexeme, Registry.contains, Shared.procedures]; rfl)
      (by rw [lexeme]; decide) (by rw [lexeme, scope]; exact List.mem_singleton.2 rfl)
    rw [address] at address'
    cases address'

end RegisterCode
