import RegisterCode.Proofs.Flow.Statements
import RegisterCode.Proofs.Tree.Expressions

/-!
Statements: the steps that a statement is compiled to do what carrying it out
does. Of a branch, the steps that are skipped leave the variables of the other
ones as they are.
-/

namespace RegisterCode

open Draft

/-- The journey at another step of the same activation. -/
def Journey.goto (j : Journey) (pos : Nat) : Journey := j.withVisit (j.visit.jump pos)

variable {c : Chart} {s : Scope} {f : Nat} {l : Listing} {depth : Nat} {d d' : Draft}
  {scene : Scene} {j k : Journey} {a : Address} {kindOf : String → TokenKind}

/-! ### Markers and jumps -/

theorem Journey.reaches_acts (depth : Nat) (pre : List Step) {ops : List Op}
    (known : c.listings[j.visit.func]? = some l) (begins : pre ++ ops.map Step.act <+: l.steps) :
    (j.goto pre.length).Reaches c (j.waiting.length + depth)
      (j.goto (pre.length + ops.length)) := by
  induction ops generalizing pre with
  | nil => exact .refl (Nat.le_add_right _ _)
  | cons op ops ih =>
      rw [List.map_cons] at begins
      have here : l.steps[pre.length]? = some (.act op) := by
        refine step_at (.trans ?_ begins)
        exact (List.prefix_append_right_inj _).2 ⟨_, rfl⟩
      have step : (j.goto pre.length).step c = .on (j.goto (pre.length + 1)) := by
        have known : c.listings[(j.goto pre.length).visit.func]? = some l := known
        have here : l.steps[(j.goto pre.length).visit.pos]? = some (.act op) := here
        simp only [Journey.step, known, here]
        rfl
      have rest := ih (pre ++ [.act op]) (by rwa [List.append_assoc])
      rw [List.length_append, List.length_singleton] at rest
      rw [List.length_cons, Nat.add_comm ops.length, ← Nat.add_assoc]
      exact .head (Nat.le_add_right _ _) step rest

/-- The journey passes over markers to where the compilation is. -/
theorem At.acts (depth : Nat) (h : At f d scene j) (known : c.listings[f]? = some l)
    (onward : d.Onward d') {pre : List Step} (ops : List Op)
    (all : d'.graph.steps = pre ++ ops.map Step.act) (begins : d'.graph.steps <+: l.steps) :
    ∃ k, (j.goto pre.length).Reaches c (j.waiting.length + depth) k ∧ k.waiting = j.waiting ∧
      At f d' scene k := by
  have length : d'.graph.steps.length = pre.length + ops.length := by
    rw [all, List.length_append, List.length_map]
  refine ⟨j.goto (pre.length + ops.length),
    Journey.reaches_acts depth _ (h.func.symm ▸ known) (all ▸ begins), rfl, h.func, length.symm,
    h.world, fun name v set' => ?_⟩
  obtain ⟨t, named, held⟩ := h.locals name v set'
  exact ⟨t, onward.locals name _ named, held⟩

theorem At.goto_self (h : At f d scene j) : j.goto d.graph.steps.length = j := by
  rw [← h.pos]
  rfl

/-- A condition is decided by the step of its jump. -/
theorem decided_does {next : Bool → Evaluating Unit} {Q : Unit → Scene → Journey → Prop}
    (here : At f d scene j) (known : c.listings[f]? = some l) {v : Value} {target : Nat}
    (begins : d.graph.steps ++ [.actOnTwo .jumpElse a (.immediate 0)] <+: l.steps)
    (value : c.value? j.visit.temps a = some v)
    (landing : l.landing d.graph.steps.length = some target)
    (holds : (j.goto (d.graph.steps.length + 1)).Does c depth (next true scene) Q)
    (fails : (j.goto target).Does c depth (next false scene) Q) :
    j.Does c depth ((Scope.decided v >>= next) scene) Q := by
  have step := here.step known begins
  simp only [Journey.act, value] at step
  cases truth : v.truthy? with
  | none =>
      simp only [truth] at step
      have run : Scope.decided v scene = .error (.failed .undecidedCondition) scene := by
        unfold Scope.decided
        simp only [truth]
        rfl
      rw [bind_of_error run]
      rw [here.world] at step
      exact .failed step
  | some b =>
      have run : Scope.decided v scene = .ok b scene := by
        unfold Scope.decided
        simp only [truth]
        rfl
      rw [bind_of_ok run]
      cases b with
      | true =>
          simp only [truth] at step
          rw [← here.pos] at holds
          exact .of_step step rfl holds
      | false =>
          simp only [truth, Journey.land, here.pos, landing] at step
          exact .of_step step rfl fails

/-! ### All statements -/

/-- The steps of a statement do what carrying it out does. -/
def Performs (c : Chart) (s : Scope) (f : Nat) (l : Listing) (depth : Nat)
    (kindOf : String → TokenKind) (stmt : Stmt) : Prop :=
  ∀ (d d' : Draft) (scene : Scene) (j : Journey), d.Sane c.procedures.size →
    d.Named kindOf s.function? →
    AllUsed (fun lexeme kind => kindOf lexeme = kind) s.source stmt.tokens →
    ofStmt s.context stmt d = .ok () d' → d'.graph.steps <+: l.steps →
    d'.constants.toList <+: c.constants.toList → At f d scene j →
    j.Does c (depth + 1) (s.perform stmt scene) fun _ scene' k => At f d' scene' k

/-- The steps of a block do what carrying out its statements does. -/
def PerformsAll (c : Chart) (s : Scope) (f : Nat) (l : Listing) (depth : Nat)
    (kindOf : String → TokenKind) (items : List Stmt) : Prop :=
  ∀ (d d' : Draft) (scene : Scene) (j : Journey), d.Sane c.procedures.size →
    d.Named kindOf s.function? →
    AllUsed (fun lexeme kind => kindOf lexeme = kind) s.source (Stmt.tokensOf items) →
    ofBlock s.context items d = .ok () d' → d'.graph.steps <+: l.steps →
    d'.constants.toList <+: c.constants.toList → At f d scene j →
    j.Does c (depth + 1) (s.performAll items scene) fun _ scene' k => At f d' scene' k

theorem expr_performs (site : Site c s f l depth) (e : Expr) :
    Performs c s f l depth kindOf (.expr e) := by
  intro d d' scene j sane named used run steps constants here
  rw [ofStmt] at run
  obtain ⟨a, d1, evaluated, run⟩ := bind_eq_ok_iff.1 run
  cases run
  rw [Stmt.tokens] at used
  rw [Scope.perform]
  exact .bind (evaluates site e d d' a scene j sane named used evaluated steps constants here)
    fun r scene' k gets _ => .ok gets.1

/-- A local that is defined is held by the temporary computed for it. -/
theorem At.defined {name : String} {v : Value} (h : At f d scene j)
    (sane : d.Sane c.procedures.size) (limit : d.temps < numberLimit) :
    At f (d.defined name a) (scene.set name v)
      (j.withVisit (j.visit.set (Int16.ofNat d.temps) v).move) := by
  have computed := h.computed sane limit (.copy · a) v
  refine ⟨computed.func, computed.pos, computed.world, fun other x set' => ?_⟩
  have set' : Function.update scene.locals name (some v) other = some x := set'
  simp only [Draft.defined, Std.HashMap.getElem?_insert, beq_iff_eq]
  by_cases same : name = other
  · subst same
    rw [Function.update_self] at set'
    cases set'
    exact ⟨Int16.ofNat d.temps, if_pos rfl, Function.update_self ..⟩
  · rw [if_neg same]
    rw [Function.update_of_ne (Ne.symm same)] at set'
    exact computed.locals other x set'

theorem define_performs (site : Site c s f l depth) (name : Token) (init : Expr) :
    Performs c s f l depth kindOf (.define name init) := by
  intro d d' scene j sane named used run steps constants here
  rw [ofStmt] at run
  obtain ⟨source, d1, evaluated, limit, -, rfl⟩ := ofDefinition_ok run
  obtain ⟨sane1, -, -⟩ := ofExpr_gives site.below init sane evaluated
  have pushed : (d1.defined (name.lexeme s.source) source).graph.steps =
      d1.graph.steps ++ [.copy (.temp (Int16.ofNat d1.temps)) source] :=
    Graph.steps_pushNewest sane1.opened
  have steps' := steps
  rw [Scope.context, pushed] at steps'
  rw [Stmt.tokens] at used
  rw [Scope.perform]
  refine .bind (evaluates site init d d1 source scene j sane named
    (fun token mem => used token (List.mem_cons_of_mem _ mem)) evaluated
    ((List.prefix_append _ _).trans steps') constants here) fun r scene' k gets _ => ?_
  obtain ⟨there, -, denotes⟩ := gets
  refine denotes.bind_get there fun v value => ?_
  have step := there.step site.known steps'
  simp only [Step.copy, Journey.act, value] at step
  exact .of_step step rfl (.ok (there.defined sane1 limit))

theorem ret_performs (site : Site c s f l depth) (e : Expr) :
    Performs c s f l depth kindOf (.ret e) := by
  intro d d' scene j sane named used run steps constants here
  obtain ⟨source, d1, evaluated, rfl⟩ := ofStmt_ret run
  obtain ⟨sane1, -, -⟩ := ofExpr_gives site.below e sane evaluated
  have pushed : (d1.pushed (.actOn .ret source)).graph.steps =
      d1.graph.steps ++ [.actOn .ret source] := Graph.steps_pushNewest sane1.opened
  rw [pushed] at steps
  rw [Stmt.tokens] at used
  rw [Scope.perform]
  refine .bind (evaluates site e d d1 source scene j sane named used evaluated
    ((List.prefix_append _ _).trans steps) constants here) fun r scene' k gets _ => ?_
  obtain ⟨there, -, denotes⟩ := gets
  refine denotes.bind_get there fun v value => ?_
  have step := there.step site.known steps
  simp only [Journey.act, value] at step
  exact ⟨k, .here, rfl, there.world, step⟩

/-- A condition is evaluated and decided, and the journey is in front of the body that
follows, or where the jump over it lands. -/
theorem branched_does (site : Site c s f l depth) {cond : Expr} {next : Bool → Evaluating Unit}
    {Q : Unit → Scene → Journey → Prop} {d1 : Draft} {target : Nat}
    (sane : d.Sane c.procedures.size) (named : d.Named kindOf s.function?)
    (used : AllUsed (fun lexeme kind => kindOf lexeme = kind) s.source cond.tokens)
    (evaluated : ofExpr s.context cond d = .ok a d1)
    (begins : (d1.branched a).opened.graph.steps <+: l.steps)
    (constants : d1.constants.toList <+: c.constants.toList) (here : At f d scene j)
    (landed : l.landing d1.graph.steps.length = some target)
    (holds : ∀ scene' k, At f (d1.branched a).opened scene' k →
      k.Does c (depth + 1) (next true scene') Q)
    (fails : ∀ scene' k, At f d1 scene' k →
      (k.goto target).Does c (depth + 1) (next false scene') Q) :
    j.Does c (depth + 1) ((do
      let v ← (← s.evaluate cond).get
      next (← Scope.decided v)) scene) Q := by
  obtain ⟨sane1, -, usable⟩ := ofExpr_gives site.below cond sane evaluated
  obtain ⟨-, onward, steps, -⟩ := sane1.entered usable
  have saved : (d1.branched a).opened.graph.steps =
      (d1.graph.steps ++ [.actOnTwo .jumpElse a (.immediate 0)]) ++ [Op.savePatch].map .act := by
    rw [steps, List.append_assoc]
    rfl
  have jumps := (List.prefix_append _ _).trans (saved ▸ begins)
  refine .bind (evaluates site cond d d1 a scene j sane named used evaluated
    ((List.prefix_append _ _).trans jumps) constants here) fun r scene' k gets _ => ?_
  obtain ⟨there, -, denotes⟩ := gets
  refine denotes.bind_get there fun v value => ?_
  refine decided_does there site.known jumps value landed ?_ (fails scene' k there)
  obtain ⟨k1, reached, waiting, there1⟩ := there.acts (depth + 1) site.known onward _ saved begins
  rw [List.length_append] at reached
  exact .of_reaches reached waiting (holds scene' k1 there1)

theorem ifThen_performs (site : Site c s f l depth) (cond : Expr) {body : Stmt}
    (ih : Performs c s f l depth kindOf body) :
    Performs c s f l depth kindOf (.ifThen cond body) := by
  intro d d' scene j sane named used run steps constants here
  obtain ⟨source, d1, d2, evaluated, compiled, rfl⟩ := ofStmt_ifThen run
  rw [Stmt.tokens, allUsed_append] at used
  obtain ⟨sane1, -, usable⟩ := ofExpr_gives site.below cond sane evaluated
  have named1 := (ofExpr_keeps keepsNames_tame cond used.1).ok evaluated named
  obtain ⟨sane2, onward1, steps1, -⟩ := sane1.entered usable
  have named2 : (d1.branched source).opened.Named kindOf s.function? := named1.quiet rfl rfl
  have executes := ofStmt_executes site.below body sane2 compiled
  obtain ⟨added, steps2, balanced⟩ := executes.balanced
  obtain ⟨-, onward3, steps3⟩ := executes.sane.joined d1.graph.blocks.size
  obtain ⟨last, played, -⟩ := site.orderly.played
  have all := steps3
  rw [steps2, steps1] at all
  have landed := Listing.landing_ifThen played balanced (all ▸ steps)
  have begins := onward3.steps.trans steps
  rw [Scope.perform]
  refine branched_does site sane named used.1 evaluated (executes.onward.steps.trans begins)
    (executes.onward.constants.trans constants) here landed (fun scene' k there => ?_)
    fun scene' k there => ?_
  · refine .forward (ih _ d2 scene' k sane2 named2 used.2 compiled begins constants there)
      fun _ scene'' k' there' => ?_
    have closes := there'.acts (depth + 1) site.known onward3 [.nop, .patchJumpElse] steps3 steps
    rwa [there'.goto_self] at closes
  · obtain ⟨k', reached, waiting, there'⟩ := there.acts (depth + 1) site.known
      ((onward1.trans executes.onward).trans onward3) [.nop, .patchJumpElse] steps3 steps
    rw [steps2, steps1, List.length_append, List.length_append] at reached
    exact .of_reaches reached waiting (.ok there')

theorem named_landed {function? : String → Option Nat} (h : d.Named kindOf function?)
    (marker : Op) : (d.landed marker).Named kindOf function? :=
  have opened : d.opened.Named kindOf function? := h.quiet rfl rfl
  (opened.pushed _).pushed _

/-- Turning to the other branch does not change what names mean. -/
theorem named_alternated {function? : String → Option Nat} (h : d.Named kindOf function?)
    (first : Nat) : (d.alternated first).Named kindOf function? :=
  have linked : (d.linkedLater (first - 1) first).Named kindOf function? := h.quiet rfl rfl
  named_landed (((linked.pushed _).pushed _).pushed _) .patchJumpElse

theorem ifElse_performs (site : Site c s f l depth) (cond : Expr) {body body' : Stmt}
    (ih : Performs c s f l depth kindOf body) (ih' : Performs c s f l depth kindOf body') :
    Performs c s f l depth kindOf (.ifElse cond body body') := by
  intro d d' scene j sane named used run steps constants here
  obtain ⟨source, d1, d2, d3, evaluated, compiled, compiled', rfl⟩ := ofStmt_ifElse run
  rw [Stmt.tokens, allUsed_append, allUsed_append] at used
  obtain ⟨⟨usedCond, usedBody⟩, usedBody'⟩ := used
  obtain ⟨sane1, -, usable⟩ := ofExpr_gives site.below cond sane evaluated
  have named1 := (ofExpr_keeps keepsNames_tame cond usedCond).ok evaluated named
  obtain ⟨sane2, onward1, steps1, -⟩ := sane1.entered usable
  have named2 : (d1.branched source).opened.Named kindOf s.function? := named1.quiet rfl rfl
  have executes := ofStmt_executes site.below body sane2 compiled
  have named3 := (ofStmt_keeps keepsNames_tame body usedBody).ok compiled named2
  obtain ⟨added, steps2, balanced⟩ := executes.balanced
  obtain ⟨sane4, onward3, steps3⟩ := executes.sane.alternated d1.graph.blocks.size
  have named4 := named_alternated named3 d1.graph.blocks.size
  have executes' := ofStmt_executes site.below body' sane4 compiled'
  obtain ⟨added', steps4, balanced'⟩ := executes'.balanced
  obtain ⟨-, onward5, steps5⟩ :=
    executes'.sane.rejoined d1.graph.blocks.size d2.graph.blocks.size
  obtain ⟨last, played, -⟩ := site.orderly.played
  have all := steps5
  rw [steps4, steps3, steps2, steps1] at all
  obtain ⟨landed, landed'⟩ := Listing.landing_ifElse played balanced balanced' (all ▸ steps)
  have begins' := onward5.steps.trans steps
  have turned := executes'.onward.steps.trans begins'
  have begins := onward3.steps.trans turned
  have constants' := executes'.onward.constants.trans constants
  have turning : d2.graph.steps ++ [.actOn .jump (.immediate 0)] <+: l.steps := by
    refine List.IsPrefix.trans ?_ turned
    rw [steps3]
    exact (List.prefix_append_right_inj _).2 ⟨_, rfl⟩
  rw [Scope.perform]
  refine branched_does site sane named usedCond evaluated (executes.onward.steps.trans begins)
    (executes.onward.constants.trans (onward3.constants.trans constants')) here landed
    (fun scene' k there => ?_) fun scene' k there => ?_
  · refine .forward (ih _ d2 scene' k sane2 named2 usedBody compiled begins
      (onward3.constants.trans constants') there) fun _ scene'' k' there' => ?_
    -- The first branch ends with the jump over the second one.
    have jumped : k'.step c = .on (k'.goto d3.graph.steps.length) := by
      rw [there'.step site.known turning]
      simp only [Journey.act, Journey.land, there'.pos]
      rw [steps4, steps3, steps2, steps1]
      simp only [List.length_append, List.length_cons, List.length_nil, landed']
      rfl
    obtain ⟨k1, reached, waiting, there1⟩ := there'.acts (depth + 1) site.known
      ((onward3.trans executes'.onward).trans onward5) [.nop, .patchJump] steps5 steps
    exact ⟨k1, .head (Nat.le_add_right _ _) jumped reached, waiting, there1⟩
  · have turned' : (d2.alternated d1.graph.blocks.size).graph.steps =
        (d2.graph.steps ++ [.actOn .jump (.immediate 0), .act .savePatch, .act .shufflePatch]) ++
          [Op.nop, .patchJumpElse].map .act := by
      rw [steps3, List.append_assoc]
      rfl
    obtain ⟨k1, reached, waiting, there1⟩ := there.acts (depth + 1) site.known
      ((onward1.trans executes.onward).trans onward3) _ turned' turned
    rw [steps2, steps1] at reached
    simp only [List.length_append, List.length_cons, List.length_nil] at reached
    refine .of_reaches reached waiting (.forward (ih' _ d3 scene' k1 sane4 named4 usedBody'
      compiled' begins' (onward5.constants.trans constants) there1) fun _ scene'' k2 there2 => ?_)
    have closes := there2.acts (depth + 1) site.known onward5 [.nop, .patchJump] steps5 steps
    rwa [there2.goto_self] at closes

theorem block_performs {items : List Stmt} (ih : PerformsAll c s f l depth kindOf items) :
    Performs c s f l depth kindOf (.block items) := by
  intro d d' scene j sane named used run steps constants here
  rw [ofStmt] at run
  rw [Stmt.tokens] at used
  rw [Scope.perform]
  exact ih d d' scene j sane named used run steps constants here

theorem nil_performs : PerformsAll c s f l depth kindOf [] := by
  intro d d' scene j _ _ _ run _ _ here
  rw [ofBlock] at run
  cases run
  rw [Scope.performAll]
  exact .ok here

theorem cons_performs (site : Site c s f l depth) {first : Stmt} {rest : List Stmt}
    (ih : Performs c s f l depth kindOf first) (ih' : PerformsAll c s f l depth kindOf rest) :
    PerformsAll c s f l depth kindOf (first :: rest) := by
  intro d d' scene j sane named used run steps constants here
  obtain ⟨d1, compiled, compiled'⟩ := ofBlock_cons run
  rw [Stmt.tokensOf, allUsed_append] at used
  have executes := ofStmt_executes site.below first sane compiled
  have named1 := (ofStmt_keeps keepsNames_tame first used.1).ok compiled named
  have executes' := ofBlock_executes site.below rest executes.sane compiled'
  rw [Scope.performAll]
  refine .bind (ih d d1 scene j sane named used.1 compiled (executes'.onward.steps.trans steps)
    (executes'.onward.constants.trans constants) here) fun _ scene' k there _ => ?_
  exact ih' d1 d' scene' k executes.sane named1 used.2 compiled' steps constants there

mutual

/-- The steps of every statement do what carrying it out does. -/
theorem performs (site : Site c s f l depth) (stmt : Stmt) :
    Performs c s f l depth kindOf stmt := by
  match stmt with
  | .expr e => exact expr_performs site e
  | .define name init => exact define_performs site name init
  | .ifThen cond body => exact ifThen_performs site cond (performs site body)
  | .ifElse cond body body' =>
      exact ifElse_performs site cond (performs site body) (performs site body')
  | .ret e => exact ret_performs site e
  | .block items => exact block_performs (performsAll site items)
  -- Declarations are not accepted inside of functions.
  | .function name params body | .imports name | .stub name params =>
      intro d d' scene j _ _ _ run
      rw [ofStmt] at run
      cases run

theorem performsAll (site : Site c s f l depth) (items : List Stmt) :
    PerformsAll c s f l depth kindOf items := by
  match items with
  | [] => exact nil_performs
  | first :: rest => exact cons_performs site (performs site first) (performsAll site rest)

end

end RegisterCode
