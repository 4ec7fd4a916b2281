import RegisterCode.Proofs.Flow.Edges
import RegisterCode.Proofs.Flow.Forest

/-!
What a function is compiled to has the outline that its body tells (`ofStmt_outlined`), and so
the compiler's own bookkeeping never goes wrong: a function always has a block that steps go
to, and its edges can all be placed.
-/

namespace RegisterCode

/-- A failure to find a block to go on in, whether there is no function at hand or one
without blocks, or to place an edge. -/
def Rejection.AboutBlocks : Rejection → Prop
  | noBlock | noLink .. => True
  | _ => False

/-! ### Moves that find their block -/

namespace Draft

/-- From a draft that has a block, the change leads to a related one, unless it is
rejected; and if so, then for another reason than the blocks. -/
def Goes {α : Type} (R : Draft → Draft → Prop) (change : Drafting α) : Prop :=
  ∀ d : Draft, 0 < d.graph.blocks.size →
    match change d with
    | .ok _ d' => R d d'
    | .error r _ => ¬ r.AboutBlocks

/-- A relation that no draft loses its blocks by. -/
class Lasting (R : Draft → Draft → Prop) : Prop extends Composes R where
  le : ∀ {d d' : Draft}, R d d' → d.graph.blocks.size ≤ d'.graph.blocks.size

namespace Goes

variable {α β : Type} {R R' : Draft → Draft → Prop}

theorem of_ok {change : Drafting α} (h : Goes R change) {d d' : Draft} {a : α}
    (opened : 0 < d.graph.blocks.size) (run : change d = .ok a d') : R d d' := by
  have goes := h d opened
  rwa [run] at goes

theorem of_error {change : Drafting α} (h : Goes R change) {d d' : Draft} {r : Rejection}
    (opened : 0 < d.graph.blocks.size) (run : change d = .error r d') : ¬ r.AboutBlocks := by
  have goes := h d opened
  rwa [run] at goes

theorem mono {change : Drafting α} (h : Goes R change)
    (weaker : ∀ {d d' : Draft}, R d d' → R' d d') : Goes R' change := by
  intro d opened
  have goes := h d opened
  cases run : change d with
  | ok a d' =>
      rw [run] at goes
      exact weaker goes
  | error r d' =>
      rw [run] at goes
      exact goes

theorem throw {r : Rejection} (other : ¬ r.AboutBlocks) : Goes R (throw r : Drafting α) :=
  fun _ _ => other

theorem modify {f : Draft → Draft} (h : ∀ d, R d (f d)) : Goes R (modify f : Drafting PUnit) :=
  fun d _ => h d

variable [Lasting R]

theorem pure (x : α) : Goes R (pure x : Drafting α) := fun _ _ => Composes.refl _

theorem get : Goes R (get : Drafting Draft) := fun _ _ => Composes.refl _

theorem bind {change : Drafting α} {next : α → Drafting β} (h : Goes R change)
    (h' : ∀ a, Goes R (next a)) : Goes R (change >>= next) := by
  intro d opened
  have goes := h d opened
  cases run : change d with
  | ok a d' =>
      rw [run] at goes
      have goes' := h' a d' (Nat.lt_of_lt_of_le opened (Lasting.le goes))
      rw [bind_of_ok run]
      cases run' : next a d' with
      | ok b d'' =>
          rw [run'] at goes'
          exact Composes.trans goes goes'
      | error r d'' =>
          rw [run'] at goes'
          exact goes'
  | error r d' =>
      rw [run] at goes
      rw [bind_of_error run]
      exact goes

theorem forM {f : α → Drafting Unit} (h : ∀ x, Goes R (f x)) (xs : List α) :
    Goes R (xs.forM f) := by
  induction xs with
  | nil => exact .pure _
  | cons x xs ih => exact .bind (h x) fun _ => ih

end Goes

/-! ### Outlines of drafts -/

variable {c : Context} {d d' : Draft}

/-- Blocks and steps were added. What was drawn in front of the block at hand stays as
it is, and that block has kept its steps. -/
structure Extends (d d' : Draft) : Prop where
  le : d.graph.blocks.size ≤ d'.graph.blocks.size
  bare : d.graph.Bare → d'.graph.Bare
  grown : d.graph.rows.dropLast <+: d'.graph.rows.dropLast
  kept : ∀ (id : Nat) (row : List Step), d.graph.rows[id]? = some row →
    ∃ row', d'.graph.rows[id]? = some row' ∧ row <+: row'
  steps : d.graph.steps <+: d'.graph.steps

/-- A piece of a function was compiled: the blocks it opened, its conditionals, and its
jumps over alternatives. -/
structure Outlined (d d' : Draft) (opens : Nat) (forks : List Fork) (hops : List (Nat × Nat)) :
    Prop extends Extends d d' where
  size : d'.graph.blocks.size = d.graph.blocks.size + opens
  planned : ∃ edges, d'.links.toList = d.links.toList ++ edges ∧
    Planned edges (d.graph.blocks.size - 1) (d.graph.blocks.size - 1 + opens) forks hops

/-- The draft goes on in the same block. -/
structure Level (d d' : Draft) : Prop extends Extends d d' where
  size : d'.graph.blocks.size = d.graph.blocks.size
  links : d'.links = d.links

/-- The draft has as many blocks as before, or more. -/
def Widens (d d' : Draft) : Prop := d.graph.blocks.size ≤ d'.graph.blocks.size

instance : Lasting Widens where
  refl _ := Nat.le_refl _
  trans := Nat.le_trans
  le h := h

theorem Extends.of_same (same : d'.graph.blocks = d.graph.blocks) : Extends d d' where
  le := Nat.le_of_eq (by rw [same])
  bare bare := fun id b found => bare id b (same ▸ found)
  grown := by rw [Graph.rows, Graph.rows, same]
  kept id row found := ⟨row, by rw [← found, Graph.rows, Graph.rows, same], List.prefix_rfl⟩
  steps := by rw [Graph.steps, Graph.steps, same]

theorem Extends.trans {d'' : Draft} (h : Extends d d') (h' : Extends d' d'') : Extends d d'' where
  le := Nat.le_trans h.le h'.le
  bare bare := h'.bare (h.bare bare)
  grown := h.grown.trans h'.grown
  kept id row found := by
    obtain ⟨row', found', begins⟩ := h.kept id row found
    obtain ⟨row'', found'', begins'⟩ := h'.kept id row' found'
    exact ⟨row'', found'', begins.trans begins'⟩
  steps := h.steps.trans h'.steps

theorem Level.of_same (blocks : d'.graph.blocks = d.graph.blocks) (links : d'.links = d.links) :
    Level d d' :=
  ⟨.of_same blocks, by rw [blocks], links⟩

instance : Lasting Level where
  refl _ := .of_same rfl rfl
  trans h h' := ⟨h.toExtends.trans h'.toExtends, h'.size.trans h.size, h'.links.trans h.links⟩
  le h := h.le

theorem Level.widens (h : Level d d') : Widens d d' := h.le

theorem Level.outlined (h : Level d d') : Outlined d d' 0 [] [] :=
  ⟨h.toExtends, h.size, [], by rw [h.links, List.append_nil], .nil _⟩

theorem Outlined.trans {d'' : Draft} {m n : Nat} {forks forks' : List Fork}
    {hops hops' : List (Nat × Nat)} (opened : 0 < d.graph.blocks.size)
    (h : Outlined d d' m forks hops) (h' : Outlined d' d'' n forks' hops') :
    Outlined d d'' (m + n) (forks ++ forks') (hops ++ hops') where
  toExtends := h.toExtends.trans h'.toExtends
  size := by rw [h'.size, h.size, Nat.add_assoc]
  planned := by
    obtain ⟨edges, links, planned⟩ := h.planned
    obtain ⟨edges', links', planned'⟩ := h'.planned
    refine ⟨edges ++ edges', by rw [links', links, List.append_assoc], ?_⟩
    have middle : d'.graph.blocks.size - 1 = d.graph.blocks.size - 1 + m := by
      rw [h.size]
      omega
    rw [middle, Nat.add_assoc] at planned'
    exact planned.append planned' (Nat.le_add_right _ _)
      (Nat.add_le_add_left (Nat.le_add_right m n) _)

theorem exists_rows (opened : 0 < d.graph.blocks.size) :
    ∃ rows row, d.graph.rows = rows ++ [row] := by
  have some : d.graph.rows ≠ [] := by
    rw [Graph.rows, ← List.length_pos_iff, List.length_map, Array.length_toList]
    exact opened
  exact ⟨_, _, (List.dropLast_append_getLast some).symm⟩

theorem extends_pushed (opened : 0 < d.graph.blocks.size) (step : Step) :
    Extends d (d.pushed step) where
  le := Nat.le_of_eq size_pushed.symm
  bare := Graph.Bare.pushNewest
  grown := by
    obtain ⟨rows, row, eq⟩ := exists_rows opened
    rw [rows_pushed eq, eq, List.dropLast_concat, List.dropLast_concat]
  kept id row found := by
    obtain ⟨rows, last, eq⟩ := exists_rows opened
    rw [eq, List.getElem?_append] at found
    rw [rows_pushed eq, List.getElem?_append]
    split at found
    · rename_i lt
      exact ⟨row, by rw [if_pos lt, found], List.prefix_rfl⟩
    · rename_i ge
      rw [if_neg ge]
      rw [List.getElem?_singleton] at found ⊢
      split at found
      · rename_i zero
        cases found
        exact ⟨_, if_pos zero, List.prefix_append _ _⟩
      · cases found
  steps := ⟨[step], (Graph.steps_pushNewest opened).symm⟩

theorem extends_opened (d : Draft) : Extends d d.opened where
  le := by
    rw [size_opened]
    exact Nat.le_succ _
  bare := Graph.Bare.addBlock
  grown := by
    rw [graph_opened, Graph.rows_addBlock, List.dropLast_concat]
    exact List.dropLast_prefix _
  kept id row found := by
    refine ⟨row, ?_, List.prefix_rfl⟩
    rw [graph_opened, Graph.rows_addBlock,
      List.getElem?_append_left (List.getElem?_eq_some_iff.1 found).1]
    exact found
  steps := by
    rw [graph_opened, Graph.steps_addBlock]

theorem extends_landed (d : Draft) (marker : Op) : Extends d (d.landed marker) := by
  have one : 0 < d.opened.graph.blocks.size := by
    rw [size_opened]
    exact Nat.succ_pos _
  exact ((extends_opened d).trans (extends_pushed one _)).trans
    (extends_pushed (by rwa [size_pushed]) _)

theorem extends_branched (opened : 0 < d.graph.blocks.size) (a : Address) :
    Extends d (d.branched a) :=
  (extends_pushed opened _).trans (extends_pushed (by rwa [size_pushed]) _)

theorem extends_turned (opened : 0 < d.graph.blocks.size) : Extends d d.turned :=
  (((extends_pushed opened _).trans (extends_pushed (by rwa [size_pushed]) _)).trans
    (extends_pushed (by rwa [size_pushed, size_pushed]) _)).trans (extends_landed _ _)

theorem extends_joined (d : Draft) (first : Nat) : Extends d (d.joined first) :=
  (extends_landed d .patchJumpElse).trans (.of_same rfl)

theorem extends_alternated (opened : 0 < d.graph.blocks.size) (first : Nat) :
    Extends d (d.alternated first) :=
  (extends_turned opened).trans (.of_same rfl)

theorem opened_alternated {first : Nat} : 0 < (d.alternated first).graph.blocks.size := by
  rw [size_alternated]
  exact Nat.succ_pos _

theorem extends_rejoined (d : Draft) (first second : Nat) : Extends d (d.rejoined first second) :=
  (extends_landed d .patchJump).trans (.of_same rfl)

theorem level_pushed (opened : 0 < d.graph.blocks.size) (step : Step) :
    Level d (d.pushed step) :=
  ⟨extends_pushed opened step, size_pushed, rfl⟩

/-! ### Expressions -/

theorem newTemp_goes : Goes Level newTemp := by
  intro d _
  unfold newTemp
  split <;> rename_i h <;> split at h <;> cases h
  · exact .of_same rfl rfl
  · exact id

theorem push_goes (step : Step) : Goes Level (push step) := by
  intro d opened
  rw [push_ok (u := ()).2 ⟨opened, rfl⟩]
  exact level_pushed opened step

theorem newestBlock_goes : Goes Level newestBlock := by
  intro d opened
  rw [newestBlock_ok.2 ⟨opened, rfl, rfl⟩]
  exact .of_same rfl rfl

theorem intern_goes (lexeme : String) (v : Value) : Goes Level (intern lexeme v) := by
  intro d _
  unfold intern
  cases d.globals[lexeme]? with
  | some a => exact Level.of_same rfl rfl
  | none =>
      dsimp only
      split <;> rename_i h <;> split at h <;> cases h
      · exact Level.of_same rfl rfl
      · exact id

theorem ofLiteral_goes (token : Token) : Goes Level (ofLiteral c token) := by
  unfold ofLiteral
  dsimp only
  split
  · exact intern_goes _ _
  · exact intern_goes _ _
  · split
    · exact intern_goes _ _
    · exact .throw id
  · split
    · exact intern_goes _ _
    · exact .throw id
  · split
    · exact .throw id
    · refine .bind .get fun d => ?_
      split
      · exact .pure _
      · exact .throw id

theorem ofName_goes (name snippet : String) : Goes Level (ofName c name snippet) := by
  unfold ofName
  split
  · split
    · exact .pure _
    · exact .throw id
  · refine .bind .get fun d => ?_
    split
    · split
      · exact .pure _
      · exact .throw id
    · exact .throw id

theorem ofCallee_goes (callee : Expr) : Goes Level (ofCallee c callee) := by
  unfold ofCallee
  dsimp only
  split
  · split
    · exact ofName_goes _ _
    · exact .throw id
  · exact .throw id

theorem ofTarget_goes (target : Expr) : Goes Level (ofTarget c target) := by
  unfold ofTarget
  dsimp only
  split
  · split
    · refine .bind (ofLiteral_goes _) fun a => ?_
      split
      · exact .pure _
      · exact .throw id
    · exact .throw id
  · exact .throw id

theorem ofCall_goes (callee : Callee) (args : Array Address) (snippet : String) :
    Goes Level (ofCall callee args snippet) := by
  unfold ofCall
  generalize (if args.isEmpty then #[Address.immediate 0] else args) = given
  have each : given.forM copyToTemp = given.toList.forM copyToTemp :=
    List.forM_toArray given.toList copyToTemp
  dsimp only
  split
  · exact .throw id
  · show Goes Level (given.forM copyToTemp >>= fun _ => _)
    rw [each]
    exact .bind (.forM (fun a => .bind newTemp_goes fun _ => push_goes _) _) fun _ =>
      .bind (push_goes _) fun _ => .bind .get fun _ => .pure _

mutual

theorem ofExpr_goes (e : Expr) : Goes Level (ofExpr c e) := by
  cases e with
  | literal token span =>
      rw [ofExpr]
      exact ofLiteral_goes token
  | call callee args span =>
      rw [ofExpr]
      exact .bind (ofCallee_goes callee) fun _ => .bind (ofArgs_goes args _) fun _ =>
        ofCall_goes _ _ _
  | unary op inner span =>
      rw [ofExpr]
      split
      · exact .throw id
      · exact .bind (ofExpr_goes inner) fun _ => .bind newTemp_goes fun _ =>
          .bind (push_goes _) fun _ => .pure _
  | binary op left right span =>
      rw [ofExpr]
      refine .bind (ofExpr_goes left) fun _ => .bind (ofExpr_goes right) fun _ => ?_
      split
      · exact .throw id
      · exact .bind newTemp_goes fun _ => .bind (push_goes _) fun _ => .pure _
  | assign target value span =>
      rw [ofExpr]
      exact .bind (ofTarget_goes target) fun _ => .bind (ofExpr_goes value) fun _ =>
        .bind (push_goes _) fun _ => .pure _
termination_by sizeOf e

theorem ofArgs_goes (es : List Expr) (read : Array Address) : Goes Level (ofArgs c es read) := by
  cases es with
  | nil => exact .pure _
  | cons e rest =>
      rw [ofArgs]
      exact .bind (ofExpr_goes e) fun _ => ofArgs_goes rest _
termination_by sizeOf es

end

/-! ### Statements -/

theorem ofDefinition_goes (name : Token) (init : Expr) : Goes Level (ofDefinition c name init) := by
  refine .bind (ofExpr_goes init) fun _ => .bind newTemp_goes fun _ => .bind (push_goes _) fun _ =>
    .bind .get fun d => ?_
  dsimp only
  split
  · exact .throw id
  · exact .modify fun _ => .of_same rfl rfl

theorem openBranch_goes (cond : Expr) : Goes Level (openBranch c cond) :=
  .bind (ofExpr_goes cond) fun _ => .bind newestBlock_goes fun _ => .bind (push_goes _) fun _ =>
    .bind (push_goes _) fun _ => .pure _

theorem newBlock_goes : Goes Widens newBlock := by
  intro d opened
  have at_hand : d.current.isSome := by rw [current_of_opened opened]; rfl
  rw [newBlock_ok.2 ⟨at_hand, rfl, rfl⟩]
  exact (extends_opened d).le

theorem linkLater_goes (source target : BlockId) : Goes Widens (linkLater source target) :=
  .modify fun _ => Nat.le_refl _

theorem push_widens (step : Step) : Goes Widens (push step) := (push_goes step).mono Level.widens

theorem land_goes (marker : Op) : Goes Widens (land marker) :=
  .bind newBlock_goes fun _ => .bind (push_widens _) fun _ => .bind (push_widens _) fun _ => .pure _

mutual

/-- Compiling a statement never fails for want of a block. -/
theorem ofStmt_goes (s : Stmt) : Goes Widens (ofStmt c s) := by
  cases s with
  | expr e =>
      rw [ofStmt]
      exact .bind ((ofExpr_goes e).mono Level.widens) fun _ => .pure _
  | define name init =>
      rw [ofStmt]
      exact (ofDefinition_goes name init).mono Level.widens
  | ifThen cond thenBody =>
      rw [ofStmt]
      exact .bind ((openBranch_goes cond).mono Level.widens) fun _ => .bind newBlock_goes fun _ =>
        .bind (ofStmt_goes thenBody) fun _ => .bind (newestBlock_goes.mono Level.widens) fun _ =>
        .bind (linkLater_goes _ _) fun _ => .bind (land_goes _) fun _ =>
        .bind (linkLater_goes _ _) fun _ => linkLater_goes _ _
  | ifElse cond thenBody elseBody =>
      rw [ofStmt]
      exact .bind ((openBranch_goes cond).mono Level.widens) fun _ => .bind newBlock_goes fun _ =>
        .bind (ofStmt_goes thenBody) fun _ => .bind (newestBlock_goes.mono Level.widens) fun _ =>
        .bind (linkLater_goes _ _) fun _ => .bind (push_widens _) fun _ =>
        .bind (push_widens _) fun _ => .bind (push_widens _) fun _ => .bind (land_goes _) fun _ =>
        .bind (ofStmt_goes elseBody) fun _ => .bind (newestBlock_goes.mono Level.widens) fun _ =>
        .bind (linkLater_goes _ _) fun _ => .bind (land_goes _) fun _ =>
        .bind (linkLater_goes _ _) fun _ => linkLater_goes _ _
  | ret e =>
      rw [ofStmt]
      exact .bind ((ofExpr_goes e).mono Level.widens) fun _ => push_widens _
  | block items =>
      rw [ofStmt]
      exact ofBlock_goes items
  | function name params body =>
      rw [ofStmt]
      exact .throw id
  | imports name =>
      rw [ofStmt]
      exact .throw id
  | stub name params =>
      rw [ofStmt]
      exact .throw id
termination_by sizeOf s

theorem ofBlock_goes (items : List Stmt) : Goes Widens (ofBlock c items) := by
  cases items with
  | nil => exact .pure _
  | cons s rest =>
      rw [ofBlock]
      exact .bind (ofStmt_goes s) fun _ => ofBlock_goes rest
termination_by sizeOf items

end

theorem Level.size_entered {d1 : Draft} (h : Level d d1) (a : Address) :
    (d1.branched a).opened.graph.blocks.size = d.graph.blocks.size + 1 := by
  rw [size_opened, size_branched, h.size]

/-- A branch without an alternative, once its condition and its body are compiled. -/
theorem Outlined.ifThen {d1 d2 : Draft} {a : Address} {m : Nat} {forks : List Fork}
    {hops : List (Nat × Nat)} (opened : 0 < d.graph.blocks.size) (level : Level d d1)
    (body : Outlined (d1.branched a).opened d2 m forks hops) :
    Outlined d (d2.joined d1.graph.blocks.size) (m + 2)
      (⟨d.graph.blocks.size - 1, d.graph.blocks.size - 1 + 1, d.graph.blocks.size - 1 + m + 2⟩ ::
        forks) hops := by
  have size := level.size_entered a
  have size' := body.size
  have opened' : 0 < d1.graph.blocks.size := by rwa [level.size]
  have landed := extends_joined d2 d1.graph.blocks.size
  refine ⟨(((level.toExtends.trans (extends_branched opened' a)).trans (extends_opened _)).trans
    body.toExtends).trans landed, ?_, ?_⟩
  · rw [size_joined]
    omega
  · obtain ⟨edges, links, planned⟩ := body.planned
    have before : (d1.branched a).opened.links.toList = d.links.toList := by
      rw [← level.links]
      rfl
    generalize eq : d.graph.blocks.size - 1 = first
    rw [show (d1.branched a).opened.graph.blocks.size - 1 = first + 1 by omega] at planned
    have all := planned.ifThen (Nat.le_add_right _ _)
    rw [show first + m + 2 = first + 1 + m + 1 by omega,
      show first + (m + 2) = first + 1 + m + 1 by omega]
    refine ⟨_, ?_, all⟩
    rw [links_joined, links, before, List.append_assoc, level.size,
      show d2.graph.blocks.size - 1 = first + 1 + m by omega,
      show d2.graph.blocks.size = first + 1 + m + 1 by omega, eq,
      show d.graph.blocks.size = first + 1 by omega]

/-- Two branches, once the condition and both bodies are compiled. -/
theorem Outlined.ifElse {d1 d2 d3 : Draft} {a : Address} {m n : Nat} {forks forks' : List Fork}
    {hops hops' : List (Nat × Nat)} (opened : 0 < d.graph.blocks.size) (level : Level d d1)
    (body : Outlined (d1.branched a).opened d2 m forks hops)
    (body' : Outlined (d2.alternated d1.graph.blocks.size) d3 n forks' hops') :
    Outlined d (d3.rejoined d1.graph.blocks.size d2.graph.blocks.size) (m + n + 3)
      (⟨d.graph.blocks.size - 1, d.graph.blocks.size - 1 + 1, d.graph.blocks.size - 1 + m + 2⟩ ::
        (forks ++ forks'))
      (hops ++ (d.graph.blocks.size - 1 + m + 1, d.graph.blocks.size - 1 + m + n + 3) ::
        hops') := by
  have size := level.size_entered a
  have size' := body.size
  have size'' := body'.size
  rw [size_alternated] at size''
  have opened' : 0 < d1.graph.blocks.size := by rwa [level.size]
  have turned := extends_alternated (show 0 < d2.graph.blocks.size by omega) d1.graph.blocks.size
  have landed := extends_rejoined d3 d1.graph.blocks.size d2.graph.blocks.size
  refine ⟨(((((level.toExtends.trans (extends_branched opened' a)).trans (extends_opened _)).trans
    body.toExtends).trans turned).trans body'.toExtends).trans landed, ?_, ?_⟩
  · rw [size_rejoined]
    omega
  · obtain ⟨edges, links, planned⟩ := body.planned
    obtain ⟨edges', links', planned'⟩ := body'.planned
    have before : (d1.branched a).opened.links.toList = d.links.toList := by
      rw [← level.links]
      rfl
    generalize eq : d.graph.blocks.size - 1 = first
    rw [show (d1.branched a).opened.graph.blocks.size - 1 = first + 1 by omega] at planned
    rw [show (d2.alternated d1.graph.blocks.size).graph.blocks.size - 1 = first + 1 + m + 1 by
      rw [size_alternated]
      omega] at planned'
    have all := planned.ifElse planned' (Nat.le_add_right _ _) (Nat.le_add_right _ _)
    rw [show first + m + 2 = first + 1 + m + 1 by omega,
      show first + m + 1 = first + 1 + m by omega,
      show first + m + n + 3 = first + 1 + m + 1 + n + 1 by omega,
      show first + (m + n + 3) = first + 1 + m + 1 + n + 1 by omega]
    refine ⟨_, ?_, all⟩
    rw [links_rejoined, links', links_alternated, links, before, level.size,
      show d3.graph.blocks.size - 1 = first + 1 + m + 1 + n by omega,
      show d3.graph.blocks.size = first + 1 + m + 1 + n + 1 by omega,
      show d2.graph.blocks.size - 1 = first + 1 + m by omega,
      show d2.graph.blocks.size = first + 1 + m + 1 by omega, eq,
      show d.graph.blocks.size = first + 1 by omega]
    simp only [Planned.alternatives, List.append_assoc]

mutual

/-- What a statement that is accepted opens and asks for is told from the tree. -/
theorem ofStmt_outlined (s : Stmt) {d d' : Draft} (run : ofStmt c s d = .ok () d')
    (opened : 0 < d.graph.blocks.size) :
    Outlined d d' s.opens (s.forks (d.graph.blocks.size - 1))
      (s.hops (d.graph.blocks.size - 1)) := by
  cases s with
  | expr e =>
      rw [ofStmt] at run
      obtain ⟨_, d1, evaluated, run⟩ := bind_eq_ok_iff.1 run
      cases run
      exact ((ofExpr_goes e).of_ok opened evaluated).outlined
  | define name init =>
      rw [ofStmt] at run
      exact ((ofDefinition_goes name init).of_ok opened run).outlined
  | ifThen cond thenBody =>
      obtain ⟨source, d1, d2, evaluated, body, rfl⟩ := ofStmt_ifThen run
      have level := (ofExpr_goes cond).of_ok opened evaluated
      have size := level.size_entered source
      have piece := ofStmt_outlined thenBody body (by omega)
      rw [show (d1.branched source).opened.graph.blocks.size - 1 = d.graph.blocks.size - 1 + 1 by
        omega] at piece
      exact .ifThen opened level piece
  | ifElse cond thenBody elseBody =>
      obtain ⟨source, d1, d2, d3, evaluated, body, body', rfl⟩ := ofStmt_ifElse run
      have level := (ofExpr_goes cond).of_ok opened evaluated
      have size := level.size_entered source
      have piece := ofStmt_outlined thenBody body (by omega)
      rw [show (d1.branched source).opened.graph.blocks.size - 1 = d.graph.blocks.size - 1 + 1 by
        omega] at piece
      have piece' := ofStmt_outlined elseBody body' opened_alternated
      rw [size_alternated, piece.size, size,
        show d.graph.blocks.size + 1 + thenBody.opens + 1 - 1 =
          d.graph.blocks.size - 1 + thenBody.opens + 2 by omega] at piece'
      exact .ifElse opened level piece piece'
  | ret e =>
      obtain ⟨source, d1, evaluated, rfl⟩ := ofStmt_ret run
      have level := (ofExpr_goes e).of_ok opened evaluated
      have opened' : 0 < d1.graph.blocks.size := by rwa [level.size]
      exact (Composes.trans level (level_pushed opened' _) : Level d _).outlined
  | block items =>
      rw [ofStmt] at run
      exact ofBlock_outlined items run opened
  | function name params body =>
      rw [ofStmt] at run
      cases run
  | imports name =>
      rw [ofStmt] at run
      cases run
  | stub name params =>
      rw [ofStmt] at run
      cases run
termination_by sizeOf s

theorem ofBlock_outlined (items : List Stmt) {d d' : Draft}
    (run : ofBlock c items d = .ok () d') (opened : 0 < d.graph.blocks.size) :
    Outlined d d' (Stmt.opensAll items) (Stmt.forksAll items (d.graph.blocks.size - 1))
      (Stmt.hopsAll items (d.graph.blocks.size - 1)) := by
  cases items with
  | nil =>
      cases run
      exact (Composes.refl d : Level d d).outlined
  | cons s rest =>
      obtain ⟨d1, first, more⟩ := ofBlock_cons run
      have piece := ofStmt_outlined s first opened
      have piece' := ofBlock_outlined rest more (Nat.lt_of_lt_of_le opened piece.le)
      have middle : d1.graph.blocks.size - 1 = d.graph.blocks.size - 1 + s.opens := by
        rw [piece.size]
        omega
      rw [middle] at piece'
      exact piece.trans opened piece'
termination_by sizeOf items

end

/-! ### Edges -/

/-- Edges that no block has three of can all be added. -/
theorem exists_forM_link {edges done : List (Nat × Nat)} (strung : d.graph.Strung done)
    (room : ∀ id, (targets (done ++ edges) id).length ≤ 2)
    (inside : ∀ edge ∈ edges, edge.1 < d.graph.blocks.size) :
    ∃ d', edges.forM link d = .ok () d' ∧ d'.graph.Strung (done ++ edges) ∧
      d'.graph.blocks.size = d.graph.blocks.size := by
  induction edges generalizing d done with
  | nil => exact ⟨d, rfl, by rwa [List.append_nil], rfl⟩
  | cons edge edges ih =>
      obtain ⟨source, target⟩ := edge
      have free : (targets done source).length ≤ 1 := by
        have all := room source
        rw [targets_append, targets_cons, if_pos rfl, List.length_append, List.length_cons] at all
        omega
      have linked : link (source, target) d =
          .ok () { d with current := some (d.graph.link source target) } :=
        if_pos (strung.canLink (inside _ List.mem_cons_self) free)
      have assoc : done ++ [(source, target)] ++ edges = done ++ (source, target) :: edges := by
        rw [List.append_assoc]
        rfl
      have size : (d.graph.link source target).blocks.size = d.graph.blocks.size := Graph.size_link
      obtain ⟨d', run, strung', size'⟩ :=
        ih (d := { d with current := some (d.graph.link source target) }) (strung.link free target)
          (by rwa [assoc]) fun edge mem =>
            Nat.lt_of_lt_of_eq (inside edge (List.mem_cons_of_mem _ mem)) size.symm
      refine ⟨d', ?_, by rwa [assoc] at strung', size'.trans size⟩
      rw [forM_cons, bind_of_ok linked]
      exact run

/-! ### Functions -/

theorem ofParams_goes (params : List Token) : Goes Level (ofParams c params) := by
  rw [ofParams_eq]
  refine .bind (.forM (fun param => ?_) params) fun _ =>
    .modify fun _ => .of_same (blocks_graph_map fun _ => rfl) rfl
  refine .bind newTemp_goes fun _ => .bind .get fun _ =>
    .bind (.modify fun _ => .of_same rfl rfl) fun _ => ?_
  split
  · exact .throw id
  · exact .pure _

/-- Once its body is accepted, a function gets its edges. -/
theorem linked_of_body {names : List String} {d1 d2 : Draft} {body : Stmt}
    (entered : Entered names d d1) (run : ofStmt c body d1 = .ok () d2) :
    ∃ d' edges, d2.links.toList.forM link d2 = .ok () d' ∧
      Planned edges 0 body.opens (body.forks 0) (body.hops 0) ∧ d'.graph.Strung edges ∧
      d'.graph.blocks.size = body.opens + 1 := by
  have one : d1.graph.blocks = Graph.empty.addBlock.blocks := by rw [entered.graph]
  have size : d1.graph.blocks.size = 1 := by
    rw [one]
    rfl
  have outlined := ofStmt_outlined body run (by omega)
  obtain ⟨edges, links, planned⟩ := outlined.planned
  rw [size, Nat.sub_self, Nat.zero_add] at planned
  have none : d1.links.toList = [] := by
    rw [entered.eq]
    rfl
  rw [none, List.nil_append] at links
  have size' := outlined.size
  have bare : d1.graph.Bare := fun id b found => Graph.bare_entry id b (one ▸ found)
  have inside : ∀ edge ∈ edges, edge.1 < d2.graph.blocks.size := fun edge mem => by
    obtain ⟨-, before, le⟩ := planned.ahead edge mem
    rw [size', size, Nat.add_comm]
    exact Nat.lt_succ_of_lt (Nat.lt_of_lt_of_le before le)
  obtain ⟨d', linked, strung, same⟩ :=
    exists_forM_link (outlined.bare bare).strung (by simpa using planned.length_le) inside
  rw [size', size, Nat.add_comm] at same
  exact ⟨d', edges, links ▸ linked, planned, by simpa using strung, same⟩

/-- The edges of a function that is accepted. -/
theorem ofFunction_strung {params : List Token} {body : Stmt} {u : Unit}
    (h : ofFunction c params body d = .ok u d') :
    ∃ edges, Planned edges 0 body.opens (body.forks 0) (body.hops 0) ∧ d'.graph.Strung edges ∧
      d'.graph.blocks.size = body.opens + 1 := by
  obtain ⟨d1, d2, entered, compiled, linking⟩ := ofFunction_ok h
  obtain ⟨d3, edges, linked, planned⟩ := linked_of_body entered compiled
  rw [linked] at linking
  cases linking
  exact ⟨edges, planned⟩

/-- A function is never rejected for its blocks or edges. -/
theorem ofFunction_error {params : List Token} {body : Stmt} {r : Rejection}
    (h : ofFunction c params body d = .error r d') : ¬ r.AboutBlocks := by
  have opened : 0 < d.enter.graph.blocks.size := Nat.succ_pos 0
  rcases bind_eq_error_iff.1 h with h | ⟨_, d1, entering, h⟩
  · cases h
  cases entering
  rcases bind_eq_error_iff.1 h with h | ⟨_, d2, binding, h⟩
  · exact (ofParams_goes params).of_error opened h
  rcases bind_eq_error_iff.1 h with h | ⟨_, d3, compiled, h⟩
  · exact (ofStmt_goes body).of_error
      (Nat.lt_of_lt_of_le opened ((ofParams_goes params).of_ok opened binding).le) h
  rw [bind_of_ok (get_apply d3)] at h
  have each : d3.links.forM link = d3.links.toList.forM link :=
    List.forM_toArray d3.links.toList link
  obtain ⟨d4, edges, linked, -⟩ := linked_of_body (entered_of_ofParams binding) compiled
  rw [each, linked] at h
  cases h

/-- A declaration is never rejected for blocks or edges. -/
theorem ofDeclaration_error {s : Stmt} {r : Rejection} (h : ofDeclaration c s d = .error r d') :
    ¬ r.AboutBlocks := by
  cases s with
  | function name params body =>
      rw [ofDeclaration_function] at h
      cases run : ofFunction c params body d with
      | ok u d1 =>
          rw [run] at h
          cases h
      | error r' d1 =>
          rw [run] at h
          cases h
          exact ofFunction_error run
  | imports name => cases h
  | stub name params =>
      have h : (if c.procedures.contains (name.lexeme c.source) then pure ()
        else throw (.unknownStub (name.lexeme c.source)) : Drafting Unit) d = .error r d' := h
      split at h <;> cases h
      exact id
  | expr | define | ifThen | ifElse | ret | block =>
      cases h
      exact id

theorem declareUnit_error {sources : Array String} {unit : SourceUnit} {r : Rejection}
    (h : declareUnit sources unit d = .error r d') : ¬ r.AboutBlocks := by
  rw [declareUnit] at h
  cases declared : unit.declaration? sources with
  | none =>
      rw [declared] at h
      cases h
  | some function =>
      simp only [declared, declare] at h
      split at h
      · cases h
        exact id
      · split at h <;> cases h

/-- What holds of the reasons for which single changes are rejected holds of all that are
kept in the end. -/
theorem rejections_foldl {α : Type} {f : α → Drafting Unit} {Q : Rejection → Prop}
    (keeps : ∀ x, KeepsTo SameRejections (f x))
    (errors : ∀ x d r d', f x d = .error r d' → Q r) {xs : List α}
    (before : ∀ r ∈ d.rejections, Q r) :
    ∀ r ∈ (xs.foldl (fun d x => d.attempt (f x)) d).rejections, Q r := by
  induction xs generalizing d with
  | nil => exact before
  | cons x xs ih =>
      rw [List.foldl_cons]
      refine ih ?_
      have same := keeps x d
      cases run : f x d with
      | ok u d1 =>
          rw [leaves_of_ok run] at same
          rw [attempt_of_ok run, same]
          exact before
      | error r d1 =>
          rw [leaves_of_error run] at same
          have rejections : (d.attempt (f x)).rejections = d.rejections.push r := by
            rw [attempt, run, ← same]
            rfl
          rw [rejections]
          intro r' mem
          rcases Array.mem_push.1 mem with mem | rfl
          · exact before r' mem
          · exact errors x d r' d1 run

/-- Whatever the forest is like, it is never rejected for blocks or edges. -/
theorem ofForest_rejections (procedures : Registry) (sources : Array String)
    (forest : List SourceUnit) :
    ∀ r ∈ (ofForest procedures sources forest).rejections, ¬ r.AboutBlocks := by
  rw [ofForest_eq]
  refine rejections_foldl (fun _ => ofDeclaration_keeps sameRejections_tame _ fun _ _ => trivial)
    (fun _ _ _ _ => ofDeclaration_error) ?_
  refine rejections_foldl declareUnit_keeps (fun _ _ _ _ => declareUnit_error) fun r mem => ?_
  simp [Draft.empty] at mem

end Draft

end RegisterCode
