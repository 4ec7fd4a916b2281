import RegisterCode.Proofs.Tree.Operands

/-!
Expressions: the steps that an expression is compiled to do what its evaluation
does. The induction is on the expression; what an operand denotes is kept until
the step that consumes it.
-/

namespace RegisterCode

open Draft

/-- Where the text of a scope is compiled. -/
def Scope.context (s : Scope) : Context := ⟨s.registry, s.source⟩

/-- The readings of the operands that a call passes. -/
def passedReadings (rs : List Reading) : List Reading :=
  if rs.isEmpty then [.value (.int 0)] else rs

variable {c : Chart} {s : Scope} {f : Nat} {l : Listing} {depth : Nat} {d d' : Draft}
  {scene : Scene} {j k : Journey} {a : Address} {α : Type} {kindOf : String → TokenKind}

theorem value?_function {g : Nat} (temps : Int16 → Option Value) :
    c.value? temps (.immediate (Int16.ofNat g)) = some (.int (Int16.ofNat g).toInt32) := rfl

theorem toInt32_ofNat {g : Nat} (h : g < numberRange) :
    (Int16.ofNat g).toInt32 = Int32.ofNat g := by
  rw [← Int32.toInt_inj, Int16.toInt_toInt32, Machine.toInt_ofNat_of_small h,
    Int32.toInt_ofNat_of_lt (Nat.lt_trans h (by decide))]

theorem value?_constant {i : Nat} {v : Value} (small : i < numberRange)
    (pooled : d.constants[i]? = some v) (constants : d.constants.toList <+: c.constants.toList)
    (temps : Int16 → Option Value) :
    c.value? temps (.constant (Int16.ofNat i)) = some v := by
  show c.constants[(Int16.ofNat i).toNatClampNeg]? = some v
  rw [Machine.toNatClampNeg_ofNat_of_small small, ← Array.getElem?_toList]
  rw [← Array.getElem?_toList] at pooled
  obtain ⟨rest, all⟩ := constants
  rw [← all, List.getElem?_append_left (List.getElem?_eq_some_iff.1 pooled).1]
  exact pooled

/-! ### Literals and targets -/

/-- Interning changes neither the steps nor the locals. -/
theorem At.interned {lexeme : String} {v : Value} (h : At f d scene j)
    (run : intern lexeme v d = .ok a d') : At f d' scene j := by
  rcases intern_ok run with ⟨rfl, -⟩ | ⟨-, -, rfl, rfl⟩
  · exact h
  · exact ⟨h.func, h.pos, h.world, h.locals⟩

theorem literal_value {token : Token} {v : Value}
    (value : token.kind.value? (token.lexeme s.source) = some v) :
    s.literal token = pure (.value v) := by
  unfold Scope.literal
  simp only [value]

/-- An identifier that names no procedure of the host. -/
theorem literal_identifier {token : Token} (identifier : token.kind = .identifier)
    (free : s.registry.contains (token.lexeme s.source) = false) :
    s.literal token = pure (match s.function? (token.lexeme s.source) with
      | some g => .value (.int (Int32.ofNat g))
      | none => .named (token.lexeme s.source)) := by
  have noValue : token.kind.value? (token.lexeme s.source) = none := by
    rw [identifier]
    rfl
  have allowed : ¬ (token.kind ≠ .identifier ∨
      s.registry.contains (token.lexeme s.source) = true) := by
    rw [identifier, free]
    decide
  unfold Scope.literal
  simp only [noValue, if_neg allowed]
  cases s.function? (token.lexeme s.source) <;> rfl

theorem literal_does {token : Token} (sane : d.Sane c.procedures.size)
    (named : d'.Named kindOf s.function?)
    (used : kindOf (token.lexeme s.source) = token.kind)
    (run : ofLiteral s.context token d = .ok a d')
    (constants : d'.constants.toList <+: c.constants.toList) (here : At f d scene j) :
    j.Does c depth (s.literal token scene) fun r scene' k => At f d' scene' k ∧
      Apart d j.visit.temps k.visit.temps ∧ Denotes c d' r a k.visit.temps := by
  have unnamed : ∀ {b : Address}, (∀ t, b ≠ .temp t) →
      ∀ t, b = .temp t → numberOf t < d'.temps ∧ ¬ d'.Owned t :=
    fun apart t same => absurd same (apart t)
  rcases ofLiteral_ok run with ⟨v, value, interned⟩ | ⟨identifier, free, known, rfl⟩
  · obtain ⟨i, small, rfl, pooled⟩ := named.literal used value interned
    rw [literal_value value]
    refine .ok ⟨here.interned interned, .refl, value?_constant small pooled constants _,
      unnamed fun t same => ?_⟩
    cases congrArg Address.space same
  · rw [literal_identifier identifier free]
    rcases named.identifier (used.trans identifier) known with ⟨g, numbered, rfl⟩ |
      ⟨numbered, known⟩
    · have numbered : s.function? (token.lexeme s.source) = some g := numbered
      rw [numbered]
      refine .ok ⟨here, .refl, ?_, unnamed fun t same => ?_⟩
      · rw [value?_function, toInt32_ofNat (named.small _ _ numbered)]
      · cases congrArg Address.space same
    · have numbered : s.function? (token.lexeme s.source) = none := numbered
      rw [numbered]
      exact .ok ⟨here, .refl, known⟩

/-- The target of an assignment is a variable. -/
theorem target_eq {target : Expr} (named : d.Named kindOf s.function?)
    (used : AllUsed (fun lexeme kind => kindOf lexeme = kind) s.source target.tokens)
    (run : ofTarget s.context target d = .ok a d') :
    ∃ name, s.target target = pure name ∧ d.locals[name]? = some a := by
  obtain ⟨token, span, rfl, identifier, free, known, temp, rfl⟩ := ofTarget_ok run
  have used := used token (by simp [Expr.tokens])
  rcases named.identifier (used.trans identifier) known with ⟨g, -, rfl⟩ | ⟨numbered, known⟩
  · cases temp
  · have numbered : s.function? (token.lexeme s.source) = none := numbered
    refine ⟨token.lexeme s.source, ?_, known⟩
    rw [Scope.target, if_pos identifier, literal_identifier identifier free, pure_bind, numbered]

/-! ### Calls -/

/-- A call without arguments passes zero, like its steps do. -/
theorem passed_bind {β : Type} (rs : List Reading) (next : List Value → Evaluating β) :
    (rs.mapM Reading.get >>= fun args => next (Scope.passed args)) =
      (passedReadings rs).mapM Reading.get >>= next := by
  cases rs with
  | nil => rfl
  | cons r rs =>
      rw [passedReadings, List.isEmpty_cons, if_neg Bool.false_ne_true]
      simp only [List.mapM_cons, bind_assoc, pure_bind, Scope.passed, List.isEmpty_cons]
      rfl

/-- Where a journey is when the operands of a call are copied. -/
structure Ready (c : Chart) (f : Nat) (l : Listing) (d : Draft) (as : List Address)
    (values : List Value) (scene : Scene) (k : Journey) : Prop where
  at_ : At f (d.copied as) scene k
  held : (windowTemps d.temps as.length).mapM k.visit.temps = some values
  some : as ≠ []
  small : as.length < numberRange

/-- What the step of a call passes. -/
theorem Ready.passed {as : List Address} {values : List Value}
    (h : Ready c f l d as values scene k) (opened : 0 < d.graph.blocks.size)
    (steps : (d.copied as).graph.steps <+: l.steps) :
    k.passed l as.length = Option.some (values, Int16.ofNat d.temps) := by
  obtain ⟨rest, all⟩ := steps
  rw [steps_copied opened] at all
  have pos : k.visit.pos = (d.graph.steps ++ copies d.temps as).length := by
    rw [h.at_.pos, steps_copied opened]
  have window := window_of_prefix all.symm
  have head : (windowTemps d.temps as.length).head? = Option.some (Int16.ofNat d.temps) := by
    cases length : as.length with
    | zero => exact absurd (List.length_eq_zero_iff.1 length) h.some
    | succ n => rfl
  rw [Journey.passed, pos, window, h.held, head]

/-- The draft after a call stands behind its step. -/
theorem Ready.called {as : List Address} {values : List Value} {callee : Callee} {v : Value}
    {w : World} {locals : String → Option Value} (h : Ready c f l d as values ⟨locals, w⟩ k)
    (sane : d.Sane c.procedures.size) (copied : (d.copied as).Sane c.procedures.size)
    (beside : d.Beside (d.copied as)) (limit : d.temps < numberLimit) (w' : World) :
    At f (d.called callee as) ⟨locals, w'⟩
      ⟨k.visit.move.set (Int16.ofNat d.temps) v, k.waiting, w'⟩ where
  func := h.at_.func
  pos := by
    have steps : (d.called callee as).graph.steps =
        (d.copied as).graph.steps ++ [callStep callee as.length] :=
      Graph.steps_pushNewest copied.opened
    rw [steps, List.length_append]
    exact congrArg (· + 1) h.at_.pos
  world := rfl
  locals name x set' := by
    obtain ⟨t, known, held⟩ := h.at_.locals name x set'
    refine ⟨t, known, (Function.update_of_ne ?_ _ _).trans held⟩
    rintro rfl
    rw [beside.same_locals] at known
    have below := (sane.growing.owned _ ⟨name, known⟩).1
    rw [numberOf_ofNat limit] at below
    exact Nat.lt_irrefl _ below

/-- The step that calls a function of the forest. -/
theorem function_does (site : Site c s f l depth) {as : List Address} {values : List Value}
    {g : Nat} {function : Declaration} (declared : s.functions[g]? = some function)
    (sane : d.Sane c.procedures.size) (copied : (d.copied as).Sane c.procedures.size)
    (numbered : g < numberRange)
    (steps : (d.called (.function (Int16.ofNat g)) as).graph.steps <+: l.steps)
    (h : Ready c f l d as values scene k) :
    k.Does c (depth + 1) (s.callFunction g values scene) fun v scene' k' =>
      scene' = { scene with world := scene'.world } ∧
      k' = ⟨k.visit.move.set (Int16.ofNat d.temps) v, k.waiting, scene'.world⟩ := by
  obtain ⟨callee, listed, params⟩ := site.arity g function declared
  have added : (d.copied as).graph.steps ++
      [callStep (.function (Int16.ofNat g)) as.length] <+: l.steps := by
    rw [← Graph.steps_pushNewest copied.opened]
    exact steps
  have count := Machine.toNatClampNeg_ofNat_of_small h.small
  have number := Machine.toNatClampNeg_ofNat_of_small numbered
  have passed := h.passed sane.opened ((List.prefix_append _ _).trans added)
  simp only [Scope.callFunction, declared]
  by_cases exact' : values.length = max 1 function.params.length
  · rw [if_pos exact']
    have step : k.step c = .on ⟨⟨g, 0, callee.entered values⟩,
        ⟨k.visit.move, Int16.ofNat d.temps⟩ :: k.waiting, k.world⟩ := by
      rw [h.at_.step site.known added]
      show k.call c l (Int16.ofNat g).toNatClampNeg (Int16.ofNat as.length).toNatClampNeg = _
      rw [count, number, Journey.call, passed, listed]
      exact if_pos (by rw [exact', params])
    have answers := site.answers g function callee values
      (⟨k.visit.move, Int16.ofNat d.temps⟩ :: k.waiting) scene.world declared listed exact'
    rw [← h.at_.world] at answers ⊢
    have deeper : (k.waiting.length + 1) + depth = k.waiting.length + (depth + 1) := by omega
    -- While the function runs, one caller more is waiting.
    have inside : ∀ k', Journey.Reaches c ((k.waiting.length + 1) + depth)
        ⟨⟨g, 0, callee.entered values⟩, ⟨k.visit.move, Int16.ofNat d.temps⟩ :: k.waiting, k.world⟩
        k' → k.Reaches c (k.waiting.length + (depth + 1)) k' :=
      fun k' there => .head (Nat.le_add_right _ _) step (deeper ▸ there)
    cases called : s.call g values k.world with
    | mk result w =>
        rw [called] at answers
        cases result with
        | ok v =>
            obtain ⟨k', there, waiting, world, leaves⟩ := answers
            have back : k'.step c =
                .on ⟨k.visit.move.set (Int16.ofNat d.temps) v, k.waiting, w⟩ := by
              rw [leaves, Journey.leave, waiting, world]
            have reached := inside k' there
            exact ⟨_, reached.trans (.head reached.waiting_le back (.refl (Nat.le_add_right _ _))),
              rfl, rfl, rfl⟩
        | error stop =>
            cases stop with
            | returned v => exact answers.elim
            | failed fault =>
                obtain ⟨k', there, fails⟩ := answers
                exact ⟨k', inside k' there, fails⟩
            | undefined => trivial
            | tooDeep =>
                obtain ⟨k', there, le⟩ := answers
                exact ⟨k', inside k' there, deeper ▸ le⟩
            | malformed => exact answers.elim
  · rw [if_neg exact']
    exact .undefined

/-- The step that calls a procedure of the host. -/
theorem procedure_does (known : c.listings[f]? = some l) {as : List Address}
    {values : List Value} {id : Nat} {p : Procedure} (provided : c.procedures[id]? = some p)
    (sane : d.Sane c.procedures.size) (copied : (d.copied as).Sane c.procedures.size)
    (small : id < numberRange)
    (steps : (d.called (.procedure (Int16.ofNat id)) as).graph.steps <+: l.steps)
    (h : Ready c f l d as values scene k) :
    k.Does c depth (Scope.callProcedure p values scene) fun v scene' k' =>
      scene' = { scene with world := scene'.world } ∧
      k' = ⟨k.visit.move.set (Int16.ofNat d.temps) v, k.waiting, scene'.world⟩ := by
  have added : (d.copied as).graph.steps ++
      [callStep (.procedure (Int16.ofNat id)) as.length] <+: l.steps := by
    rw [← Graph.steps_pushNewest copied.opened]
    exact steps
  have count := Machine.toNatClampNeg_ofNat_of_small h.small
  have number := Machine.toNatClampNeg_ofNat_of_small small
  have passed := h.passed sane.opened ((List.prefix_append _ _).trans added)
  have step : k.step c = k.callProcedure c l id as.length := by
    rw [h.at_.step known added]
    show k.callProcedure c l (Int16.ofNat id).toNatClampNeg
      (Int16.ofNat as.length).toNatClampNeg = _
    rw [count, number]
  rw [Journey.callProcedure, passed, provided, h.at_.world] at step
  unfold Scope.callProcedure
  cases performed : p.perform values scene.world with
  | mk result w =>
      simp only [performed] at step
      cases result with
      | ok v => exact ⟨_, .single step rfl, rfl, rfl, rfl⟩
      | error fault => exact ⟨k, .here, step⟩

/-- What a name that is called stands for: a procedure of the host, or else the first
function with that name. -/
inductive Calls (s : Scope) (name : String) : Callee → Prop where
  | procedure {id : UInt16} (registered : s.registry.id? name = some id)
    (within : id.toNat < numberRange) : Calls s name (.procedure (Int16.ofNat id.toNat))
  | function {g : Nat} (free : s.registry.id? name = none) (numbered : s.function? name = some g)
    (small : g < numberRange) : Calls s name (.function (Int16.ofNat g))

theorem calls_of_name {called : Callee} {name snippet : String}
    (named : d.Named kindOf s.function?) (used : kindOf name = .identifier)
    (sane : d.Sane c.procedures.size) (resolved : ofName s.context name snippet d = .ok called d') :
    Calls s name called := by
  rcases (ofName_ok resolved).2 with ⟨id, registered, within, rfl⟩ | ⟨free, g, known, rfl⟩
  · exact .procedure registered within
  · rcases named.identifier used known with ⟨g', numbered, same⟩ | ⟨-, known⟩
    · cases same
      exact .function free numbered (named.small _ _ numbered)
    · cases sane.locals _ _ known

/-- The values of operands are copied, and what is called gets them. -/
theorem call_does (site : Site c s f l depth) {called : Callee} {name : String}
    {rs : List Reading} {as : List Address} (sane : d.Sane c.procedures.size)
    (calls : Calls s name called)
    (some : as ≠ []) (small : as.length < numberRange)
    (limit : d.temps + as.length ≤ numberLimit) (usable : ∀ a ∈ as, d.Usable a)
    (steps : (d.called called as).graph.steps <+: l.steps) (here : At f d scene j)
    (denotes : List.Forall₂ (fun r a => Denotes c d r a j.visit.temps) rs as) :
    j.Does c (depth + 1)
      ((rs.mapM Reading.get >>= s.callName name) scene) fun v scene' k =>
        At f (d.called called as) scene' k ∧ Apart d j.visit.temps k.visit.temps ∧
          Denotes c (d.called called as) (.value v) (.temp (Int16.ofNat d.temps))
            k.visit.temps := by
  obtain ⟨copied, beside, -⟩ := sane.copied limit usable
  have bound : d.temps < numberLimit := by
    have positive := List.length_pos_of_ne_nil some
    omega
  have pushed : (d.called called as).graph.steps =
      (d.copied as).graph.steps ++ [callStep called as.length] :=
    Graph.steps_pushNewest copied.opened
  have steps' : (d.copied as).graph.steps <+: l.steps := by
    rw [pushed] at steps
    exact (List.prefix_append _ _).trans steps
  refine .bind (copied_does site.known sane limit usable steps' here denotes)
    fun values scene' k after _ => ?_
  obtain ⟨rfl, there, apart, held⟩ := after
  have ready : Ready c f l d as values scene' k := ⟨there, held, some, small⟩
  -- Whatever is called, its answer is put into the first temporary of the window.
  have answered : ∀ v scene'' k', scene'' = { scene' with world := scene''.world } →
      k' = ⟨k.visit.move.set (Int16.ofNat d.temps) v, k.waiting, scene''.world⟩ →
      At f (d.called called as) scene'' k' ∧ Apart d j.visit.temps k'.visit.temps ∧
        Denotes c (d.called called as) (.value v) (.temp (Int16.ofNat d.temps))
          k'.visit.temps := by
    rintro v ⟨locals, w⟩ k' same rfl
    cases same
    refine ⟨ready.called sane copied beside bound w, fun t within unnamed => ?_,
      Function.update_self .., fun t same => ?_⟩
    · exact (Apart.update bound _ t within unnamed).trans (apart t within unnamed)
    · cases same
      have number := numberOf_ofNat bound
      refine ⟨?_, fun ⟨name, known⟩ => ?_⟩
      · show numberOf _ < (d.copied as).temps
        rw [temps_copied, number]
        exact Nat.lt_add_of_pos_right (List.length_pos_of_ne_nil some)
      · have known : (d.copied as).locals[name]? = _ := known
        rw [beside.same_locals] at known
        have below := (sane.growing.owned _ ⟨name, known⟩).1
        omega
  cases calls with
  | @procedure id registered within =>
      have lt := site.below _ id registered
      have provided : c.procedures[id.toNat]? = Option.some c.procedures[id.toNat] :=
        Array.getElem?_eq_getElem lt
      have provided' : s.table[id.toNat]? = Option.some c.procedures[id.toNat] :=
        site.table ▸ provided
      have run : s.callName name values =
          Scope.callProcedure c.procedures[id.toNat] values := by
        unfold Scope.callName
        simp only [registered, provided']
      rw [run]
      exact (procedure_does site.known provided sane copied within steps ready).mono
        fun v scene'' k' shows' _ => answered v scene'' k' shows'.1 shows'.2
  | @function g free numbered within =>
      have lt := (List.findIdx?_eq_some_iff_getElem.1 numbered).1
      have run : s.callName name values = s.callFunction g values := by
        unfold Scope.callName
        simp only [free, numbered]
      rw [run]
      exact (function_does site (List.getElem?_eq_getElem lt) sane copied within steps
        ready).mono fun v scene'' k' shows' _ => answered v scene'' k' shows'.1 shows'.2

/-! ### All expressions -/

/-- What the evaluation of an expression comes to in a journey. -/
def Gets (c : Chart) (f : Nat) (d d' : Draft) (a : Address) (j : Journey) (r : Reading)
    (scene : Scene) (k : Journey) : Prop :=
  At f d' scene k ∧ Apart d j.visit.temps k.visit.temps ∧ Denotes c d' r a k.visit.temps

theorem Gets.after {d'' : Draft} {r : Reading} {k' : Journey} (beside : d.Beside d')
    (apart : Apart d j.visit.temps k.visit.temps) (h : Gets c f d' d'' a k r scene k') :
    Gets c f d d'' a j r scene k' :=
  ⟨h.1, apart.trans beside h.2.1, h.2.2⟩

/-- A step gives a new temporary the value of an expression. -/
theorem gets_computed (sane : d.Sane c.procedures.size) (limit : d.temps < numberLimit)
    (g : Address → Step) (v : Value) (here : At f d scene j) :
    Gets c f d (d.computed g) (.temp (Int16.ofNat d.temps)) j (.value v) scene
      (j.withVisit (j.visit.set (Int16.ofNat d.temps) v).move) :=
  ⟨here.computed sane limit g v, .update limit _, denotes_computed sane limit g v⟩

/-- An assignment changes its variable and no other. -/
theorem gets_assigned {name : String} {arg : Address} {v : Value}
    (sane : d.Sane c.procedures.size) (known : d.locals[name]? = some a)
    (here : At f d scene j) :
    Gets c f d (d.pushed (.copy a arg)) a j (.named name) (scene.set name v)
      (j.withVisit (j.visit.set a.id v).move) := by
  have temp := eq_temp_of_isTemp (sane.locals name a known)
  refine ⟨⟨here.func, ?_, here.world, fun other x set' => ?_⟩, fun t within unnamed => ?_, known⟩
  · have steps : (d.pushed (.copy a arg)).graph.steps = d.graph.steps ++ [.copy a arg] :=
      Graph.steps_pushNewest sane.opened
    rw [steps, List.length_append]
    exact congrArg (· + 1) here.pos
  · have set' : Function.update scene.locals name (some v) other = some x := set'
    by_cases same : other = name
    · subst same
      rw [Function.update_self] at set'
      cases set'
      exact ⟨a.id, known.trans (congrArg some temp), Function.update_self ..⟩
    · rw [Function.update_of_ne same] at set'
      obtain ⟨t, named, held⟩ := here.locals other x set'
      refine ⟨t, named, (Function.update_of_ne ?_ _ _).trans held⟩
      rintro rfl
      exact same (sane.distinct other name _ named (known.trans (congrArg some temp)))
  · refine Function.update_of_ne ?_ _ _
    rintro rfl
    exact unnamed ⟨name, known.trans (congrArg some temp)⟩

/-- The steps of an expression do what its evaluation does. -/
def Evaluates (c : Chart) (s : Scope) (f : Nat) (l : Listing) (depth : Nat)
    (kindOf : String → TokenKind) (e : Expr) : Prop :=
  ∀ (d d' : Draft) (a : Address) (scene : Scene) (j : Journey), d.Sane c.procedures.size →
    d.Named kindOf s.function? →
    AllUsed (fun lexeme kind => kindOf lexeme = kind) s.source e.tokens →
    ofExpr s.context e d = .ok a d' → d'.graph.steps <+: l.steps →
    d'.constants.toList <+: c.constants.toList → At f d scene j →
    j.Does c (depth + 1) (s.evaluate e scene) (Gets c f d d' a j)

/-- The steps of several expressions do what their evaluation does. -/
def EvaluatesAll (c : Chart) (s : Scope) (f : Nat) (l : Listing) (depth : Nat)
    (kindOf : String → TokenKind) (es : List Expr) : Prop :=
  ∀ (d d' : Draft) (read operands : Array Address) (scene : Scene) (j : Journey),
    d.Sane c.procedures.size → d.Named kindOf s.function? →
    AllUsed (fun lexeme kind => kindOf lexeme = kind) s.source (Expr.tokensOf es) →
    ofArgs s.context es read d = .ok operands d' → d'.graph.steps <+: l.steps →
    d'.constants.toList <+: c.constants.toList → At f d scene j →
    j.Does c (depth + 1) (s.evaluateAll es scene) fun rs scene' k =>
      At f d' scene' k ∧ Apart d j.visit.temps k.visit.temps ∧
        ∃ as, operands.toList = read.toList ++ as ∧
          List.Forall₂ (fun r a => Denotes c d' r a k.visit.temps) rs as

theorem literal_evaluates (token : Token) (span : Span) :
    Evaluates c s f l depth kindOf (.literal token span) := by
  intro d d' a scene j sane named used run _ constants here
  have named' := (ofExpr_keeps keepsNames_tame _ used).ok run named
  rw [ofExpr] at run
  rw [Scope.evaluate]
  exact literal_does sane named' (used token (by simp [Expr.tokens])) run constants here

theorem unary_evaluates (site : Site c s f l depth) (op : Operator) {inner : Expr} (span : Span)
    (ih : Evaluates c s f l depth kindOf inner) :
    Evaluates c s f l depth kindOf (.unary op inner span) := by
  intro d d' a scene j sane named used run steps constants here
  obtain ⟨rfl, arg, d1, first, limit, rfl, rfl⟩ := ofExpr_unary run
  rw [Expr.tokens] at used
  obtain ⟨sane1, beside, -⟩ := ofExpr_gives site.below inner sane first
  have pushed : (d1.computed (.unary · .neg arg)).graph.steps =
      d1.graph.steps ++ [.unary (.temp (Int16.ofNat d1.temps)) .neg arg] :=
    Graph.steps_pushNewest sane1.opened
  rw [pushed] at steps
  rw [Scope.evaluate]
  refine .bind (ih d d1 arg scene j sane named used first
    ((List.prefix_append _ _).trans steps) constants here) fun r scene' k gets _ => ?_
  obtain ⟨there, apart, denotes⟩ := gets
  refine denotes.bind_get there fun v value => ?_
  have step := there.step site.known steps
  simp only [Journey.act, value] at step
  rw [if_pos rfl, Scope.negative]
  by_cases dud : v.neg.isDud = true
  · rw [if_pos dud] at step ⊢
    rw [there.world] at step
    exact .failed step
  · rw [if_neg dud] at step ⊢
    exact .of_step step rfl (.ok (.after beside apart (gets_computed sane1 limit _ v.neg there)))

theorem binary_evaluates (site : Site c s f l depth) (op : Operator) {left right : Expr}
    (span : Span) (ih : Evaluates c s f l depth kindOf left)
    (ih' : Evaluates c s f l depth kindOf right) :
    Evaluates c s f l depth kindOf (.binary op left right span) := by
  intro d d' a scene j sane named used run steps constants here
  obtain ⟨first, d1, second, d2, op', one, two, binary, limit, rfl, rfl⟩ := ofExpr_binary run
  rw [Expr.tokens, allUsed_append] at used
  obtain ⟨sane1, beside1, -⟩ := ofExpr_gives site.below left sane one
  obtain ⟨sane2, beside2, -⟩ := ofExpr_gives site.below right sane1 two
  have named1 := (ofExpr_keeps keepsNames_tame left used.1).ok one named
  have pushed : (d2.computed (.binary · (.binary op') first second)).graph.steps =
      d2.graph.steps ++ [.binary (.temp (Int16.ofNat d2.temps)) (.binary op') first second] :=
    Graph.steps_pushNewest sane2.opened
  rw [pushed] at steps
  have steps2 := (List.prefix_append _ _).trans steps
  rw [Scope.evaluate]
  refine .bind (ih d d1 first scene j sane named used.1 one (beside2.steps.trans steps2)
    (beside2.constants.trans constants) here) fun r scene1 k1 gets _ => ?_
  obtain ⟨there1, apart1, denotes1⟩ := gets
  refine .bind (ih' d1 d2 second scene1 k1 sane1 named1 used.2 two steps2 constants there1)
    fun r' scene2 k2 gets _ => ?_
  obtain ⟨there2, apart2, denotes2⟩ := gets
  refine (denotes1.later beside2 apart2).bind_get there2 fun x value => ?_
  refine denotes2.bind_get there2 fun y value' => ?_
  have step := there2.step site.known steps
  simp only [Journey.act, value, value'] at step
  rw [Scope.combine, binary]
  dsimp only
  cases outcome : op'.outcome x y with
  | error fault =>
      rw [outcome, there2.world] at step
      exact .failed step
  | ok v =>
      rw [outcome] at step
      exact .of_step step rfl (.ok (.after (beside1.trans beside2)
        (apart1.trans beside1 apart2) (gets_computed sane2 limit _ v there2)))

theorem assign_evaluates (site : Site c s f l depth) (target : Expr) {value : Expr} (span : Span)
    (ih : Evaluates c s f l depth kindOf value) :
    Evaluates c s f l depth kindOf (.assign target value span) := by
  intro d d' a scene j sane named used run steps constants here
  obtain ⟨d1, arg, d2, targeted, evaluated, rfl⟩ := ofExpr_assign run
  rw [Expr.tokens, allUsed_append] at used
  obtain ⟨name, variable', known⟩ := target_eq named used.1 targeted
  obtain ⟨-, -, -, -, -, -, -, rfl⟩ := ofTarget_ok targeted
  obtain ⟨sane2, beside, -⟩ := ofExpr_gives site.below value sane evaluated
  have pushed : (d2.pushed (.copy a arg)).graph.steps = d2.graph.steps ++ [.copy a arg] :=
    Graph.steps_pushNewest sane2.opened
  rw [pushed] at steps
  rw [Scope.evaluate, variable', pure_bind]
  refine .bind (ih _ d2 arg scene j sane named used.2 evaluated
    ((List.prefix_append _ _).trans steps) constants here) fun r scene' k gets _ => ?_
  obtain ⟨there, apart, denotes⟩ := gets
  refine denotes.bind_get there fun v value' => ?_
  have step := there.step site.known steps
  simp only [Step.copy, Journey.act, value'] at step
  exact .of_step step rfl (.ok (.after beside apart
    (gets_assigned sane2 (beside.same_locals ▸ known) there)))

/-- The operands that a call passes denote what its readings are. -/
theorem forall₂_passed {rs : List Reading} {as : List Address}
    {temps : Int16 → Option Value}
    (h : List.Forall₂ (fun r a => Denotes c d r a temps) rs as) :
    List.Forall₂ (fun r a => Denotes c d r a temps) (passedReadings rs) (passedOperands as) := by
  cases h with
  | nil =>
      refine .cons ⟨rfl, fun t same => ?_⟩ .nil
      cases congrArg Address.space same
  | cons first rest => exact .cons first rest

theorem call_evaluates (site : Site c s f l depth) (callee : Expr) {args : List Expr}
    (span : Span) (ih : EvaluatesAll c s f l depth kindOf args) :
    Evaluates c s f l depth kindOf (.call callee args span) := by
  intro d d' a scene j sane named used run steps constants here
  obtain ⟨called, d1, operands, d2, resolved, evaluated, passed⟩ := ofExpr_call run
  obtain ⟨token, span', rfl, identifier, resolved⟩ := ofCallee_ok resolved
  obtain rfl := (ofName_ok resolved).1
  rw [Expr.tokens, allUsed_append] at used
  obtain ⟨sane2, beside, as, all, -, usable⟩ := ofArgs_gives site.below args sane evaluated
  have named2 := (ofArgs_keeps keepsNames_tame args used.2 _).ok evaluated named
  obtain ⟨small, limit, rfl, rfl⟩ := ofCall_ok passed
  have all : operands.toList = as := all
  rw [all] at small limit steps constants ⊢
  have kind : kindOf (token.lexeme s.source) = .identifier :=
    (used.1 token (by simp [Expr.tokens])).trans identifier
  have usable' : ∀ a ∈ passedOperands as, d2.Usable a := by
    intro a mem
    unfold passedOperands at mem
    split at mem
    · rw [List.mem_singleton.1 mem]
      exact usable_immediate _ _
    · exact usable a mem
  obtain ⟨copied, beside', -⟩ := sane2.copied limit usable'
  have pushed : (d2.called called (passedOperands as)).graph.steps =
      (d2.copied (passedOperands as)).graph.steps ++
        [callStep called (passedOperands as).length] :=
    Graph.steps_pushNewest copied.opened
  have steps2 : d2.graph.steps <+: l.steps := by
    rw [pushed] at steps
    exact beside'.steps.trans ((List.prefix_append _ _).trans steps)
  have calls : Calls s (token.lexeme s.source) called := calls_of_name named kind sane resolved
  have callExpr : s.callExpr (.literal token span') =
      fun args => s.callName (token.lexeme s.source) (Scope.passed args) := by
    funext args
    rw [Scope.callExpr]
    exact if_pos identifier
  rw [Scope.evaluate, callExpr]
  refine .bind (ih _ d2 #[] operands scene j sane named used.2 evaluated steps2
    (beside'.constants.trans constants) here) fun rs scene' k gets _ => ?_
  obtain ⟨there, apart, as', all', denotes⟩ := gets
  have same : as' = as := all'.symm.trans all
  subst same
  have does := call_does site sane2 calls (passedOperands_ne_nil _) small limit usable' steps there
    (forall₂_passed denotes)
  rw [← passed_bind] at does
  rw [← bind_assoc]
  refine .bind does fun v scene'' k' gets _ => ?_
  exact .ok (.after beside apart gets)

theorem nil_evaluates : EvaluatesAll c s f l depth kindOf [] := by
  intro d d' read operands scene j _ _ _ run _ _ here
  cases run
  rw [Scope.evaluateAll]
  exact .ok ⟨here, .refl, [], (List.append_nil _).symm, .nil⟩

theorem cons_evaluates (site : Site c s f l depth) {e : Expr} {rest : List Expr}
    (ih : Evaluates c s f l depth kindOf e) (ih' : EvaluatesAll c s f l depth kindOf rest) :
    EvaluatesAll c s f l depth kindOf (e :: rest) := by
  intro d d' read operands scene j sane named used run steps constants here
  obtain ⟨a, d1, one, more⟩ := ofArgs_cons run
  rw [Expr.tokensOf, allUsed_append] at used
  obtain ⟨sane1, beside1, -⟩ := ofExpr_gives site.below e sane one
  obtain ⟨-, beside2, -⟩ := ofArgs_gives site.below rest sane1 more
  have named1 := (ofExpr_keeps keepsNames_tame e used.1).ok one named
  rw [Scope.evaluateAll]
  refine .bind (ih d d1 a scene j sane named used.1 one (beside2.steps.trans steps)
    (beside2.constants.trans constants) here) fun r scene1 k1 gets _ => ?_
  obtain ⟨there1, apart1, denotes1⟩ := gets
  refine .bind (ih' d1 d' (read.push a) operands scene1 k1 sane1 named1 used.2 more steps
    constants there1) fun rs scene2 k2 gets _ => ?_
  obtain ⟨there2, apart2, as, all, denotes2⟩ := gets
  refine .ok ⟨there2, apart1.trans beside1 apart2, a :: as, ?_,
    .cons (denotes1.later beside2 apart2) denotes2⟩
  rw [all, Array.toList_push, List.append_assoc]
  rfl

mutual

/-- The steps of every expression do what its evaluation does. -/
theorem evaluates (site : Site c s f l depth) (e : Expr) : Evaluates c s f l depth kindOf e := by
  cases e with
  | literal token span => exact literal_evaluates token span
  | call callee args span => exact call_evaluates site callee span (evaluatesAll site args)
  | unary op inner span => exact unary_evaluates site op span (evaluates site inner)
  | binary op left right span =>
      exact binary_evaluates site op span (evaluates site left) (evaluates site right)
  | assign target value span => exact assign_evaluates site target span (evaluates site value)
termination_by sizeOf e

theorem evaluatesAll (site : Site c s f l depth) (es : List Expr) :
    EvaluatesAll c s f l depth kindOf es := by
  cases es with
  | nil => exact nil_evaluates
  | cons e rest => exact cons_evaluates site (evaluates site e) (evaluatesAll site rest)
termination_by sizeOf es

end

end RegisterCode
