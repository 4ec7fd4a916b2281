import RegisterCode.Proofs.Effect
import RegisterCode.Proofs.Tree.Evaluation

/-!
What compiling a declaration does to the parts of a draft that outlive functions:
literals are interned, and nothing else. A relation that interning keeps to is
kept to by the whole compilation. In particular the rejections made before stay,
so a forest is accepted only if each of its declarations was, one after the
other.
-/

namespace RegisterCode

namespace Draft

/-- A relation that asks only for what interning does to literals that are used. -/
structure Tame (R : Draft → Draft → Prop) (uses : String → TokenKind → Prop) : Prop where
  quiet : ∀ {d d' : Draft}, d'.globals = d.globals → d'.constants = d.constants →
    d'.functions = d.functions → d'.rejections = d.rejections → R d d'
  intern : ∀ {lexeme : String} {kind : TokenKind} {v : Value}, uses lexeme kind →
    kind.value? lexeme = some v → KeepsTo R (intern lexeme v)

variable {c : Context} {R : Draft → Draft → Prop} {uses : String → TokenKind → Prop}

section

variable (tame : Tame R uses)

include tame

/-! ### Moves -/

theorem newTemp_keeps : KeepsTo R newTemp := by
  intro d
  unfold leaves newTemp
  split <;> rename_i h <;> split at h <;> cases h <;> exact tame.quiet rfl rfl rfl rfl

theorem newBlock_keeps : KeepsTo R newBlock := by
  intro d
  unfold leaves newBlock
  cases d.current <;> exact tame.quiet rfl rfl rfl rfl

theorem newestBlock_keeps : KeepsTo R newestBlock := by
  intro d
  unfold leaves newestBlock
  cases d.current with
  | none => exact tame.quiet rfl rfl rfl rfl
  | some g =>
      dsimp only
      cases g.newest? <;> exact tame.quiet rfl rfl rfl rfl

theorem push_keeps (step : Step) : KeepsTo R (push step) := by
  intro d
  unfold leaves push
  cases d.current with
  | none => exact tame.quiet rfl rfl rfl rfl
  | some g =>
      dsimp only
      cases g.blocks.isEmpty <;> exact tame.quiet rfl rfl rfl rfl

theorem linkLater_keeps (source target : BlockId) : KeepsTo R (linkLater source target) :=
  fun _ => tame.quiet rfl rfl rfl rfl

theorem link_keeps (edge : BlockId × BlockId) : KeepsTo R (link edge) := by
  intro d
  unfold leaves link
  split <;> rename_i h <;> split at h <;> cases h <;> exact tame.quiet rfl rfl rfl rfl

theorem bindLocal_keeps (name : String) (a : Address) : KeepsTo R (bindLocal name a) :=
  fun _ => tame.quiet rfl rfl rfl rfl

variable [Composes R]

omit tame in
theorem forM_keeps {α : Type} {f : α → Drafting Unit} {xs : List α}
    (h : ∀ x ∈ xs, KeepsTo R (f x)) : KeepsTo R (xs.forM f) := by
  induction xs with
  | nil => exact .pure _
  | cons x xs ih =>
      exact .bind (h x List.mem_cons_self) fun _ =>
        ih fun x mem => h x (List.mem_cons_of_mem _ mem)

/-! ### Expressions and statements -/

theorem ofLiteral_keeps (token : Token) (used : uses (token.lexeme c.source) token.kind) :
    KeepsTo R (ofLiteral c token) := by
  unfold ofLiteral
  have interns : ∀ {v : Value}, token.kind.value? (token.lexeme c.source) = some v →
      KeepsTo R (intern (token.lexeme c.source) v) := fun literal => tame.intern used literal
  unfold TokenKind.value? at interns
  dsimp only
  cases kind : token.kind with
  | true =>
      rw [kind] at interns
      exact interns rfl
  | false =>
      rw [kind] at interns
      exact interns rfl
  | int =>
      rw [kind] at interns
      dsimp only
      split
      · rename_i n read
        exact interns (by rw [read]; rfl)
      · exact .throw _
  | float =>
      rw [kind] at interns
      dsimp only
      split
      · rename_i x read
        exact interns (by rw [read]; rfl)
      · exact .throw _
  | identifier =>
      dsimp only
      split
      · exact .throw _
      · refine .bind .get fun d => ?_
        split
        · exact .pure _
        · exact .throw _

omit tame in
theorem ofName_keeps (name snippet : String) : KeepsTo R (ofName c name snippet) := by
  unfold ofName
  split
  · split
    · exact .pure _
    · exact .throw _
  · refine .bind .get fun d => ?_
    split
    · split
      · exact .pure _
      · exact .throw _
    · exact .throw _

omit tame in
theorem ofCallee_keeps (callee : Expr) : KeepsTo R (ofCallee c callee) := by
  unfold ofCallee
  dsimp only
  split
  · split
    · exact ofName_keeps _ _
    · exact .throw _
  · exact .throw _

/-- The tokens are all used. -/
def AllUsed (uses : String → TokenKind → Prop) (source : String) (tokens : List Token) : Prop :=
  ∀ token ∈ tokens, uses (token.lexeme source) token.kind

omit tame in
theorem allUsed_append {source : String} {ts ts' : List Token} :
    AllUsed uses source (ts ++ ts') ↔ AllUsed uses source ts ∧ AllUsed uses source ts' :=
  List.forall_mem_append

theorem ofTarget_keeps (target : Expr) (used : AllUsed uses c.source target.tokens) :
    KeepsTo R (ofTarget c target) := by
  unfold ofTarget
  dsimp only
  split
  · rename_i token span
    split
    · refine .bind (ofLiteral_keeps tame token (used token List.mem_cons_self)) fun a => ?_
      split
      · exact .pure _
      · exact .throw _
    · exact .throw _
  · exact .throw _

theorem copyToTemp_keeps (source : Address) : KeepsTo R (copyToTemp source) :=
  .bind (newTemp_keeps tame) fun _ => push_keeps tame _

theorem ofCall_keeps (callee : Callee) (args : Array Address) (snippet : String) :
    KeepsTo R (ofCall callee args snippet) := by
  unfold ofCall
  generalize (if args.isEmpty then #[Address.immediate 0] else args) = given
  have each : given.forM copyToTemp = given.toList.forM copyToTemp :=
    List.forM_toArray given.toList copyToTemp
  have rest := KeepsTo.bind (forM_keeps fun a (_ : a ∈ given.toList) => copyToTemp_keeps tame a)
    fun _ => KeepsTo.bind (push_keeps tame (.actOnTwo callee.op (.immediate callee.id)
      (.immediate (Int16.ofNat given.size)))) fun _ => KeepsTo.bind KeepsTo.get fun d =>
        KeepsTo.pure (Address.temp (Int16.ofNat (d.temps - given.size)))
  rw [← each] at rest
  dsimp only
  split
  · exact .throw _
  · exact rest

end

section

variable [Composes R]

mutual

theorem ofExpr_keeps (tame : Tame R uses) (e : Expr) (used : AllUsed uses c.source e.tokens) :
    KeepsTo R (ofExpr c e) := by
  cases e with
  | literal token span =>
      rw [ofExpr]
      exact ofLiteral_keeps tame token (used token (by simp [Expr.tokens]))
  | call callee args span =>
      rw [ofExpr]
      rw [Expr.tokens, allUsed_append] at used
      exact .bind (ofCallee_keeps callee) fun _ => .bind (ofArgs_keeps tame args used.2 _) fun _ =>
        ofCall_keeps tame _ _ _
  | unary op inner span =>
      rw [ofExpr]
      rw [Expr.tokens] at used
      split
      · exact .throw _
      · exact .bind (ofExpr_keeps tame inner used) fun _ => .bind (newTemp_keeps tame) fun _ =>
          .bind (push_keeps tame _) fun _ => .pure _
  | binary op left right span =>
      rw [ofExpr]
      rw [Expr.tokens, allUsed_append] at used
      refine .bind (ofExpr_keeps tame left used.1) fun _ =>
        .bind (ofExpr_keeps tame right used.2) fun _ => ?_
      split
      · exact .throw _
      · exact .bind (newTemp_keeps tame) fun _ => .bind (push_keeps tame _) fun _ => .pure _
  | assign target value span =>
      rw [ofExpr]
      rw [Expr.tokens, allUsed_append] at used
      exact .bind (ofTarget_keeps tame target used.1) fun _ =>
        .bind (ofExpr_keeps tame value used.2) fun _ => .bind (push_keeps tame _) fun _ => .pure _
termination_by sizeOf e

theorem ofArgs_keeps (tame : Tame R uses) (es : List Expr)
    (used : AllUsed uses c.source (Expr.tokensOf es)) (read : Array Address) :
    KeepsTo R (ofArgs c es read) := by
  cases es with
  | nil => exact .pure _
  | cons e rest =>
      rw [ofArgs]
      rw [Expr.tokensOf, allUsed_append] at used
      exact .bind (ofExpr_keeps tame e used.1) fun _ => ofArgs_keeps tame rest used.2 _
termination_by sizeOf es

end

section

variable (tame : Tame R uses)

include tame

theorem ofDefinition_keeps (name : Token) (init : Expr)
    (used : AllUsed uses c.source init.tokens) : KeepsTo R (ofDefinition c name init) := by
  refine .bind (ofExpr_keeps tame init used) fun _ => .bind (newTemp_keeps tame) fun _ =>
    .bind (push_keeps tame _) fun _ => .bind .get fun d => ?_
  dsimp only
  split
  · exact .throw _
  · exact bindLocal_keeps tame _ _

theorem openBranch_keeps (cond : Expr) (used : AllUsed uses c.source cond.tokens) :
    KeepsTo R (openBranch c cond) :=
  .bind (ofExpr_keeps tame cond used) fun _ => .bind (newestBlock_keeps tame) fun _ =>
    .bind (push_keeps tame _) fun _ => .bind (push_keeps tame _) fun _ => .pure _

theorem land_keeps (marker : Op) : KeepsTo R (land marker) :=
  .bind (newBlock_keeps tame) fun _ => .bind (push_keeps tame _) fun _ =>
    .bind (push_keeps tame _) fun _ => .pure _

end

mutual

theorem ofStmt_keeps (tame : Tame R uses) (s : Stmt) (used : AllUsed uses c.source s.tokens) :
    KeepsTo R (ofStmt c s) := by
  cases s with
  | expr e =>
      rw [ofStmt]
      rw [Stmt.tokens] at used
      exact .bind (ofExpr_keeps tame e used) fun _ => .pure _
  | define name init =>
      rw [ofStmt]
      rw [Stmt.tokens] at used
      exact ofDefinition_keeps tame name init fun token mem =>
        used token (List.mem_cons_of_mem _ mem)
  | ifThen cond thenBody =>
      rw [ofStmt]
      rw [Stmt.tokens, allUsed_append] at used
      exact .bind (openBranch_keeps tame cond used.1) fun _ => .bind (newBlock_keeps tame) fun _ =>
        .bind (ofStmt_keeps tame thenBody used.2) fun _ => .bind (newestBlock_keeps tame) fun _ =>
        .bind (linkLater_keeps tame _ _) fun _ => .bind (land_keeps tame _) fun _ =>
        .bind (linkLater_keeps tame _ _) fun _ => linkLater_keeps tame _ _
  | ifElse cond thenBody elseBody =>
      rw [ofStmt]
      rw [Stmt.tokens, allUsed_append, allUsed_append] at used
      exact .bind (openBranch_keeps tame cond used.1.1) fun _ =>
        .bind (newBlock_keeps tame) fun _ => .bind (ofStmt_keeps tame thenBody used.1.2) fun _ =>
        .bind (newestBlock_keeps tame) fun _ => .bind (linkLater_keeps tame _ _) fun _ =>
        .bind (push_keeps tame _) fun _ => .bind (push_keeps tame _) fun _ =>
        .bind (push_keeps tame _) fun _ => .bind (land_keeps tame _) fun _ =>
        .bind (ofStmt_keeps tame elseBody used.2) fun _ => .bind (newestBlock_keeps tame) fun _ =>
        .bind (linkLater_keeps tame _ _) fun _ => .bind (land_keeps tame _) fun _ =>
        .bind (linkLater_keeps tame _ _) fun _ => linkLater_keeps tame _ _
  | ret e =>
      rw [ofStmt]
      rw [Stmt.tokens] at used
      exact .bind (ofExpr_keeps tame e used) fun _ => push_keeps tame _
  | block items =>
      rw [ofStmt]
      rw [Stmt.tokens] at used
      exact ofBlock_keeps tame items used
  | function name params body =>
      rw [ofStmt]
      exact .throw _
  | imports name =>
      rw [ofStmt]
      exact .throw _
  | stub name params =>
      rw [ofStmt]
      exact .throw _
termination_by sizeOf s

theorem ofBlock_keeps (tame : Tame R uses) (items : List Stmt)
    (used : AllUsed uses c.source (Stmt.tokensOf items)) : KeepsTo R (ofBlock c items) := by
  cases items with
  | nil => exact .pure _
  | cons s rest =>
      rw [ofBlock]
      rw [Stmt.tokensOf, allUsed_append] at used
      exact .bind (ofStmt_keeps tame s used.1) fun _ => ofBlock_keeps tame rest used.2
termination_by sizeOf items

end

end

/-! ### Declarations -/

/-- Gives a parameter the next temporary. -/
def bindParam (c : Context) (param : Token) : Drafting Unit := do
  let name := param.lexeme c.source
  let temp ← newTemp
  let known := (← get).locals.contains name
  bindLocal name temp
  if known then throw (.redefinition name name)

theorem ofParams_eq (params : List Token) :
    ofParams c params = params.forM (bindParam c) >>= fun _ =>
      modify fun d => { d with
        current := d.current.map fun g => { g with paramCount := UInt16.ofNat d.temps } } := by
  rw [← forIn_eq_forM, ofParams]
  congr 2
  funext param _
  simp only [bindParam, bind_assoc]
  congr 1
  funext temp
  congr 1
  funext d
  congr 1
  funext _
  split <;> rfl

theorem ofDeclaration_function (name : Token) (params : List Token) (body : Stmt) (d : Draft) :
    ofDeclaration c (.function name params body) d =
      match ofFunction c params body d with
      | .ok _ d => .ok () d.close
      | .error r d => .error r d.close := rfl

section

variable (tame : Tame R uses) [Composes R]

include tame

theorem bindParam_keeps (param : Token) : KeepsTo R (bindParam c param) := by
  refine .bind (newTemp_keeps tame) fun _ => .bind .get fun _ =>
    .bind (bindLocal_keeps tame _ _) fun _ => ?_
  split
  · exact .throw _
  · exact .pure _

theorem ofFunction_keeps (params : List Token) (body : Stmt)
    (used : AllUsed uses c.source body.tokens) : KeepsTo R (ofFunction c params body) := by
  refine .bind (.modify fun _ => tame.quiet rfl rfl rfl rfl) fun _ => .bind ?_ fun _ =>
    .bind (ofStmt_keeps tame body used) fun _ => .bind .get fun d => ?_
  · rw [ofParams_eq]
    exact .bind (forM_keeps fun param _ => bindParam_keeps tame param) fun _ =>
      .modify fun _ => tame.quiet rfl rfl rfl rfl
  · have each : d.links.forM link = d.links.toList.forM link :=
      List.forM_toArray d.links.toList link
    exact each ▸ forM_keeps fun edge _ => link_keeps tame edge

theorem ofDeclaration_keeps (s : Stmt) (used : AllUsed uses c.source s.tokens) :
    KeepsTo R (ofDeclaration c s) := by
  cases s with
  | function name params body =>
      rw [Stmt.tokens] at used
      have used : AllUsed uses c.source body.tokens := fun token mem =>
        used token (List.mem_append_right _ mem)
      intro d
      have keeps := ofFunction_keeps tame params body used d
      have eq := ofDeclaration_function (c := c) name params body d
      cases run : ofFunction c params body d with
      | ok u d' =>
          rw [run] at eq
          rw [leaves_of_ok run] at keeps
          rw [leaves_of_ok eq]
          exact Composes.trans keeps (tame.quiet rfl rfl rfl rfl)
      | error r d' =>
          rw [run] at eq
          rw [leaves_of_error run] at keeps
          rw [leaves_of_error eq]
          exact Composes.trans keeps (tame.quiet rfl rfl rfl rfl)
  | imports name => exact .pure _
  | stub name params =>
      show KeepsTo _ (if _ then _ else _)
      split
      · exact .pure _
      · exact .throw _
  | expr e => exact .throw (Rejection.outsideFunction (Stmt.expr e).kindName)
  | define name init => exact .throw (Rejection.outsideFunction (Stmt.define name init).kindName)
  | ifThen cond body => exact .throw (Rejection.outsideFunction (Stmt.ifThen cond body).kindName)
  | ifElse cond body body' =>
      exact .throw (Rejection.outsideFunction (Stmt.ifElse cond body body').kindName)
  | ret e => exact .throw (Rejection.outsideFunction (Stmt.ret e).kindName)
  | block items => exact .throw (Rejection.outsideFunction (Stmt.block items).kindName)

end

/-! ### Rejections -/

/-- The rejections made so far stay as they are. -/
def SameRejections (d d' : Draft) : Prop := d'.rejections = d.rejections

instance : Composes SameRejections where
  refl _ := rfl
  trans h h' := h'.trans h

theorem sameRejections_tame : Tame SameRejections fun _ _ => True where
  quiet _ _ _ same := same
  intern {lexeme _ v} _ _ := by
    intro d
    unfold leaves intern
    cases d.globals[lexeme]? with
    | some a => rfl
    | none =>
        dsimp only
        split <;> rename_i h <;> split at h <;> cases h <;> rfl

theorem declare_keeps (name : String) : KeepsTo SameRejections (declare name) := by
  intro d
  by_cases full : numberLimit ≤ d.functions
  · rw [leaves, declare, if_pos full]
    rfl
  · rw [leaves, declare, if_neg full]
    dsimp only
    by_cases known : d.globals.contains name = true
    · rw [if_pos known]
      rfl
    · rw [if_neg known]
      rfl

theorem attempt_of_ok {change : Drafting Unit} {d d' : Draft} (h : change d = .ok () d') :
    d.attempt change = d' := by
  rw [attempt, h]

/-- If no rejection is left at the end, all the changes were accepted. -/
theorem forM_of_foldl_attempt {α : Type} {f : α → Drafting Unit}
    (keeps : ∀ x, KeepsTo SameRejections (f x)) {xs : List α} {d : Draft}
    (h : (xs.foldl (fun d x => d.attempt (f x)) d).rejections = #[]) :
    d.rejections = #[] ∧ xs.forM f d = .ok () (xs.foldl (fun d x => d.attempt (f x)) d) := by
  induction xs generalizing d with
  | nil => exact ⟨h, rfl⟩
  | cons x xs ih =>
      rw [List.foldl_cons] at h ⊢
      obtain ⟨clean, rest⟩ := ih h
      have keep := keeps x d
      cases run : f x d with
      | ok u d' =>
          rw [attempt_of_ok run] at clean rest
          rw [leaves_of_ok run] at keep
          refine ⟨keep.symm.trans clean, ?_⟩
          rw [forM_cons, bind_of_ok run, attempt_of_ok run]
          exact rest
      | error r d' =>
          have rejected : d.attempt (f x) = d'.reject r := by rw [attempt, run]
          rw [rejected] at clean
          exact absurd clean (by simp [reject, note])

end Draft

end RegisterCode
