import RegisterCode.Proofs.Flow.Branches
import RegisterCode.Proofs.Flow.Expressions

/-!
Compiling statements: what each form of statement is compiled to. The draft
stays sane, jumps are saved and landed in pairs, and the edges asked for lead
ahead, with one to every block that was opened.
-/

namespace RegisterCode

namespace Draft

variable {c : Context} {d d' : Draft} {procedures : Nat} {a : Address} {step : Step}

/-! ### Moves that branches are made of -/

/-- The draft with a jump ahead that is taken when a condition fails. -/
def branched (source : Address) (d : Draft) : Draft :=
  (d.pushed (.actOnTwo .jumpElse source (.immediate 0))).pushed (.act .savePatch)

/-- The draft with the block that a remembered jump leads to. -/
def landed (marker : Op) (d : Draft) : Draft :=
  (d.opened.pushed (.act .nop)).pushed (.act marker)

/-- The draft with the jump over the second branch, and the block of that branch. -/
def turned (d : Draft) : Draft :=
  (((d.pushed (.actOn .jump (.immediate 0))).pushed (.act .savePatch)).pushed
    (.act .shufflePatch)).landed .patchJumpElse

/-- The draft with one more edge to be added. -/
def linkedLater (source target : Nat) (d : Draft) : Draft :=
  { d with links := d.links.push (source, target) }

/-- The draft when a branch without an alternative is over. Its body begins in the
block `first`, behind the one that its condition ends. -/
def joined (first : Nat) (d : Draft) : Draft :=
  (((d.linkedLater (first - 1) first).landed .patchJumpElse).linkedLater
    (d.graph.blocks.size - 1) d.graph.blocks.size).linkedLater (first - 1) d.graph.blocks.size

/-- The draft when the first of two branches is over and the second one begins. -/
def alternated (first : Nat) (d : Draft) : Draft := (d.linkedLater (first - 1) first).turned

/-- The draft when two branches are over, which begin in the given blocks. -/
def rejoined (first second : Nat) (d : Draft) : Draft :=
  (((d.linkedLater (first - 1) second).landed .patchJump).linkedLater
    (second - 1) d.graph.blocks.size).linkedLater (d.graph.blocks.size - 1) d.graph.blocks.size

/-- The draft with a local whose value has just been computed. -/
def defined (name : String) (source : Address) (d : Draft) : Draft :=
  { d.computed (.copy · source) with
    locals := d.locals.insert name (.temp (Int16.ofNat d.temps)) }

theorem size_pushed : (d.pushed step).graph.blocks.size = d.graph.blocks.size :=
  Graph.size_pushNewest

theorem size_opened : d.opened.graph.blocks.size = d.graph.blocks.size + 1 :=
  Graph.size_addBlock

theorem size_branched : (d.branched a).graph.blocks.size = d.graph.blocks.size := by
  rw [branched, size_pushed, size_pushed]

theorem size_landed {marker : Op} :
    (d.landed marker).graph.blocks.size = d.graph.blocks.size + 1 := by
  rw [landed, size_pushed, size_pushed, size_opened]

theorem size_turned : d.turned.graph.blocks.size = d.graph.blocks.size + 1 := by
  rw [turned, size_landed, size_pushed, size_pushed, size_pushed]

theorem linkLater_ok {source target : Nat} {u : Unit} :
    linkLater source target d = .ok u d' ↔ d' = d.linkedLater source target := by
  simp only [linkLater, modify_apply, EStateM.Result.ok.injEq, true_and]
  exact eq_comm

theorem openBranch_ok {cond : Expr} {before : BlockId}
    (h : openBranch c cond d = .ok before d') :
    ∃ source d1, ofExpr c cond d = .ok source d1 ∧ before = d1.graph.blocks.size - 1 ∧
      d' = d1.branched source := by
  obtain ⟨source, d1, evaluated, h⟩ := bind_eq_ok_iff.1 h
  obtain ⟨before', d2, newest, h⟩ := bind_eq_ok_iff.1 h
  obtain ⟨_, d3, first, h⟩ := bind_eq_ok_iff.1 h
  obtain ⟨_, d4, second, h⟩ := bind_eq_ok_iff.1 h
  obtain ⟨-, rfl, rfl⟩ := newestBlock_ok.1 newest
  obtain ⟨-, rfl⟩ := push_ok.1 first
  obtain ⟨-, rfl⟩ := push_ok.1 second
  cases h
  exact ⟨source, d2, evaluated, rfl, rfl⟩

theorem land_ok {marker : Op} {id : BlockId} (h : land marker d = .ok id d') :
    id = d.graph.blocks.size ∧ d' = d.landed marker := by
  obtain ⟨id', d1, opening, h⟩ := bind_eq_ok_iff.1 h
  obtain ⟨_, d2, first, h⟩ := bind_eq_ok_iff.1 h
  obtain ⟨_, d3, second, h⟩ := bind_eq_ok_iff.1 h
  obtain ⟨-, rfl, rfl⟩ := newBlock_ok.1 opening
  obtain ⟨-, rfl⟩ := push_ok.1 first
  obtain ⟨-, rfl⟩ := push_ok.1 second
  cases h
  exact ⟨rfl, rfl⟩

/-! ### When a statement is accepted -/

theorem ofDefinition_ok {name : Token} {init : Expr} {u : Unit}
    (h : ofDefinition c name init d = .ok u d') :
    ∃ source d1, ofExpr c init d = .ok source d1 ∧ d1.temps < numberLimit ∧
      d1.locals[name.lexeme c.source]? = none ∧
      d' = d1.defined (name.lexeme c.source) source := by
  obtain ⟨source, d1, evaluated, h⟩ := bind_eq_ok_iff.1 h
  obtain ⟨dest, d2, first, h⟩ := bind_eq_ok_iff.1 h
  obtain ⟨_, d3, second, h⟩ := bind_eq_ok_iff.1 h
  obtain ⟨limit, rfl, rfl⟩ := newTemp_ok.1 first
  obtain ⟨-, rfl⟩ := push_ok.1 second
  dsimp only at h
  rw [bind_of_ok (get_apply _)] at h
  split at h
  · cases h
  · rename_i free
    cases h
    refine ⟨source, d1, evaluated, limit, ?_, rfl⟩
    have free : name.lexeme c.source ∉ d1.locals := free
    exact Std.HashMap.getElem?_eq_none free

theorem ofStmt_ifThen {cond : Expr} {thenBody : Stmt} {u : Unit}
    (h : ofStmt c (.ifThen cond thenBody) d = .ok u d') :
    ∃ source d1 d2, ofExpr c cond d = .ok source d1 ∧
      ofStmt c thenBody (d1.branched source).opened = .ok () d2 ∧
      d' = d2.joined d1.graph.blocks.size := by
  rw [ofStmt] at h
  obtain ⟨before, _, branching, h⟩ := bind_eq_ok_iff.1 h
  obtain ⟨source, d1, evaluated, rfl, rfl⟩ := openBranch_ok branching
  obtain ⟨thenId, _, opening, h⟩ := bind_eq_ok_iff.1 h
  obtain ⟨-, rfl, rfl⟩ := newBlock_ok.1 opening
  obtain ⟨_, d2, body, h⟩ := bind_eq_ok_iff.1 h
  obtain ⟨thenEnd, _, newest, h⟩ := bind_eq_ok_iff.1 h
  obtain ⟨-, rfl, rfl⟩ := newestBlock_ok.1 newest
  obtain ⟨_, _, linking, h⟩ := bind_eq_ok_iff.1 h
  obtain rfl := linkLater_ok.1 linking
  obtain ⟨after, _, landing, h⟩ := bind_eq_ok_iff.1 h
  obtain ⟨rfl, rfl⟩ := land_ok landing
  obtain ⟨_, _, linking, h⟩ := bind_eq_ok_iff.1 h
  obtain rfl := linkLater_ok.1 linking
  obtain rfl := linkLater_ok.1 h
  refine ⟨source, d1, _, evaluated, body, ?_⟩
  rw [size_branched]
  rfl

theorem ofStmt_ifElse {cond : Expr} {thenBody elseBody : Stmt} {u : Unit}
    (h : ofStmt c (.ifElse cond thenBody elseBody) d = .ok u d') :
    ∃ source d1 d2 d3, ofExpr c cond d = .ok source d1 ∧
      ofStmt c thenBody (d1.branched source).opened = .ok () d2 ∧
      ofStmt c elseBody (d2.alternated d1.graph.blocks.size) = .ok () d3 ∧
      d' = d3.rejoined d1.graph.blocks.size d2.graph.blocks.size := by
  rw [ofStmt] at h
  obtain ⟨before, _, branching, h⟩ := bind_eq_ok_iff.1 h
  obtain ⟨source, d1, evaluated, rfl, rfl⟩ := openBranch_ok branching
  obtain ⟨thenId, _, opening, h⟩ := bind_eq_ok_iff.1 h
  obtain ⟨-, rfl, rfl⟩ := newBlock_ok.1 opening
  obtain ⟨_, d2, body, h⟩ := bind_eq_ok_iff.1 h
  obtain ⟨thenEnd, _, newest, h⟩ := bind_eq_ok_iff.1 h
  obtain ⟨-, rfl, rfl⟩ := newestBlock_ok.1 newest
  obtain ⟨_, _, linking, h⟩ := bind_eq_ok_iff.1 h
  obtain rfl := linkLater_ok.1 linking
  obtain ⟨_, _, jumping, h⟩ := bind_eq_ok_iff.1 h
  obtain ⟨-, rfl⟩ := push_ok.1 jumping
  obtain ⟨_, _, saving, h⟩ := bind_eq_ok_iff.1 h
  obtain ⟨-, rfl⟩ := push_ok.1 saving
  obtain ⟨_, _, shuffling, h⟩ := bind_eq_ok_iff.1 h
  obtain ⟨-, rfl⟩ := push_ok.1 shuffling
  obtain ⟨elseId, _, landing, h⟩ := bind_eq_ok_iff.1 h
  obtain ⟨rfl, rfl⟩ := land_ok landing
  obtain ⟨_, d3, body', h⟩ := bind_eq_ok_iff.1 h
  obtain ⟨elseEnd, _, newest, h⟩ := bind_eq_ok_iff.1 h
  obtain ⟨-, rfl, rfl⟩ := newestBlock_ok.1 newest
  obtain ⟨_, _, linking, h⟩ := bind_eq_ok_iff.1 h
  obtain rfl := linkLater_ok.1 linking
  obtain ⟨after, _, landing, h⟩ := bind_eq_ok_iff.1 h
  obtain ⟨rfl, rfl⟩ := land_ok landing
  obtain ⟨_, _, linking, h⟩ := bind_eq_ok_iff.1 h
  obtain rfl := linkLater_ok.1 linking
  obtain rfl := linkLater_ok.1 h
  rw [size_branched] at body'
  refine ⟨source, d1, _, _, evaluated, body, body', ?_⟩
  rw [size_pushed, size_pushed, size_pushed]
  rfl

theorem ofStmt_ret {e : Expr} {u : Unit} (h : ofStmt c (.ret e) d = .ok u d') :
    ∃ source d1, ofExpr c e d = .ok source d1 ∧ d' = d1.pushed (.actOn .ret source) := by
  rw [ofStmt] at h
  obtain ⟨source, d1, evaluated, h⟩ := bind_eq_ok_iff.1 h
  obtain ⟨-, rfl⟩ := push_ok.1 h
  exact ⟨source, d1, evaluated, rfl⟩

theorem ofBlock_cons {s : Stmt} {rest : List Stmt} {u : Unit}
    (h : ofBlock c (s :: rest) d = .ok u d') :
    ∃ d1, ofStmt c s d = .ok () d1 ∧ ofBlock c rest d1 = .ok () d' := by
  rw [ofBlock] at h
  obtain ⟨_, d1, first, h⟩ := bind_eq_ok_iff.1 h
  exact ⟨d1, first, h⟩

/-! ### What statements leave behind -/

/-- A statement was compiled. -/
structure Executes (procedures : Nat) (d d' : Draft) : Prop where
  sane : d'.Sane procedures
  onward : d.Onward d'
  balanced : ∃ added, d'.graph.steps = d.graph.steps ++ added ∧
    Patching.Balanced (added.map Step.marker)
  blocks_le : d.graph.blocks.size ≤ d'.graph.blocks.size
  links : d.links.toList ⊆ d'.links.toList
  ahead : ∀ source target : Nat, (source, target) ∈ d'.links.toList →
    (source, target) ∈ d.links.toList ∨ (source < target ∧ target < d'.graph.blocks.size)
  entered : ∀ id : Nat, d.graph.blocks.size ≤ id → id < d'.graph.blocks.size →
    ∃ source : Nat, (source, id) ∈ d'.links.toList
  drawn : Drawn d.graph.rows → Drawn d'.graph.rows

namespace Executes

theorem refl (h : d.Sane procedures) : Executes procedures d d where
  sane := h
  onward := .refl d
  balanced := ⟨[], (List.append_nil _).symm, Patching.balanced_nil⟩
  blocks_le := Nat.le_refl _
  links := List.Subset.refl _
  ahead _ _ mem := .inl mem
  entered _ low high := absurd high (Nat.not_lt.2 low)
  drawn := id

theorem trans {d'' : Draft} (h : Executes procedures d d') (h' : Executes procedures d' d'') :
    Executes procedures d d'' where
  sane := h'.sane
  onward := h.onward.trans h'.onward
  balanced := by
    obtain ⟨added, steps, balanced⟩ := h.balanced
    obtain ⟨added', steps', balanced'⟩ := h'.balanced
    exact ⟨added ++ added', by rw [steps', steps, List.append_assoc],
      by rw [List.map_append]; exact balanced.append balanced'⟩
  blocks_le := Nat.le_trans h.blocks_le h'.blocks_le
  links := List.Subset.trans h.links h'.links
  ahead source target mem := by
    rcases h'.ahead source target mem with mem | new
    · exact (h.ahead source target mem).imp_right fun ⟨lt, within⟩ =>
        ⟨lt, Nat.lt_of_lt_of_le within h'.blocks_le⟩
    · exact .inr new
  entered id low high := by
    by_cases early : id < d'.graph.blocks.size
    · obtain ⟨source, mem⟩ := h.entered id low early
      exact ⟨source, h'.links mem⟩
    · exact h'.entered id (Nat.not_lt.1 early) high
  drawn rows := h'.drawn (h.drawn rows)

theorem of_beside (sane : d'.Sane procedures) (h : d.Beside d') :
    Executes procedures d d' where
  sane := sane
  onward := h.toOnward
  balanced := by
    obtain ⟨added, steps, quiet⟩ := h.quiet
    refine ⟨added, steps, Patching.balanced_quiet fun op mem => ?_⟩
    obtain ⟨here, there, rfl⟩ := List.mem_map.1 mem
    exact quiet here there
  blocks_le := Nat.le_of_eq h.blocks.symm
  links := by rw [h.links]; exact List.Subset.refl _
  ahead _ _ mem := .inl (h.links ▸ mem)
  entered _ low high := absurd high (by rw [h.blocks]; exact Nat.not_lt.2 low)
  drawn := h.drawn

end Executes

/-! ### Moves keep drafts sane -/

theorem Sane.pushed_act (h : d.Sane procedures) {op : Op}
    (legal : (Step.act op).Legal d.constants.size d.functions procedures) :
    (d.pushed (.act op)).Sane procedures ∧ d.Onward (d.pushed (.act op)) :=
  ⟨h.pushed legal rfl rfl (fun _ same => by cases same) (by simp [Step.args]),
    h.onward_pushed rfl⟩

theorem Sane.opened' (h : d.Sane procedures) : d.opened.Sane procedures ∧ d.Onward d.opened := by
  have listing : d.opened.graph.listing = d.graph.listing := by
    simp only [graph_opened, Graph.listing, Graph.steps_addBlock]
    rfl
  refine ⟨{ h with
    growing := listing ▸ h.growing
    opened := by rw [size_opened]; exact Nat.succ_pos _
    bare := h.bare.addBlock }, { Onward.refl d with
    steps := by
      show d.graph.steps <+: d.graph.addBlock.steps
      rw [Graph.steps_addBlock]
    ready := fun t known => listing ▸ known }⟩

theorem Sane.linkedLater (h : d.Sane procedures) (source target : Nat) :
    (d.linkedLater source target).Sane procedures ∧ d.Onward (d.linkedLater source target) :=
  ⟨{ h with }, { Onward.refl d with }⟩

theorem Sane.branched (h : d.Sane procedures) (usable : d.Usable a) :
    (d.branched a).Sane procedures ∧ d.Onward (d.branched a) ∧
      (d.branched a).graph.steps = d.graph.steps ++
        [.actOnTwo .jumpElse a (.immediate 0), .act .savePatch] := by
  have jump : (d.pushed (.actOnTwo .jumpElse a (.immediate 0))).Sane procedures :=
    h.pushed (.jumpElse usable.sound) rfl rfl (fun _ same => by cases same)
      (by simpa [Step.args] using ⟨usable, usable_immediate _ _⟩)
  obtain ⟨save, onward⟩ := jump.pushed_act .savePatch
  refine ⟨save, (h.onward_pushed rfl).trans onward, ?_⟩
  show (Graph.pushNewest _ _).steps = _
  rw [Graph.steps_pushNewest jump.opened]
  show (Graph.pushNewest _ _).steps ++ _ = _
  rw [Graph.steps_pushNewest h.opened, List.append_assoc]
  rfl

theorem Sane.landed (h : d.Sane procedures) {marker : Op}
    (legal : (Step.act marker).Legal d.constants.size d.functions procedures) :
    (d.landed marker).Sane procedures ∧ d.Onward (d.landed marker) ∧
      (d.landed marker).graph.steps = d.graph.steps ++ [.act .nop, .act marker] := by
  obtain ⟨opened, onward⟩ := h.opened'
  obtain ⟨nop, onward'⟩ := opened.pushed_act .nop
  obtain ⟨patch, onward''⟩ := nop.pushed_act legal
  refine ⟨patch, (onward.trans onward').trans onward'', ?_⟩
  show (Graph.pushNewest _ _).steps = _
  rw [Graph.steps_pushNewest nop.opened]
  show (Graph.pushNewest _ _).steps ++ _ = _
  rw [Graph.steps_pushNewest opened.opened]
  show d.graph.addBlock.steps ++ _ ++ _ = _
  rw [Graph.steps_addBlock, List.append_assoc]
  rfl

theorem Sane.turned (h : d.Sane procedures) :
    d.turned.Sane procedures ∧ d.Onward d.turned ∧
      d.turned.graph.steps = d.graph.steps ++ [.actOn .jump (.immediate 0), .act .savePatch,
        .act .shufflePatch, .act .nop, .act .patchJumpElse] := by
  have jump : (d.pushed (.actOn .jump (.immediate 0))).Sane procedures :=
    h.pushed .jump rfl rfl (fun _ same => by cases same)
      (by simpa [Step.args] using usable_immediate _ _)
  obtain ⟨save, onward⟩ := jump.pushed_act .savePatch
  obtain ⟨shuffle, onward'⟩ := save.pushed_act .shufflePatch
  obtain ⟨land, onward'', steps⟩ := shuffle.landed .patchJumpElse
  refine ⟨land, (((h.onward_pushed rfl).trans onward).trans onward').trans onward'', ?_⟩
  rw [Draft.turned, steps]
  show (Graph.pushNewest _ _).steps ++ _ = _
  rw [Graph.steps_pushNewest save.opened]
  show (Graph.pushNewest _ _).steps ++ _ ++ _ = _
  rw [Graph.steps_pushNewest jump.opened]
  show (Graph.pushNewest _ _).steps ++ _ ++ _ ++ _ = _
  rw [Graph.steps_pushNewest h.opened]
  simp only [List.append_assoc]
  rfl

/-- A name that is free so far gets the temporary that was just computed. -/
theorem Sane.defined (h : d.Sane procedures) {name : String} (limit : d.temps < numberLimit)
    (usable : d.Usable a) (free : d.locals[name]? = none) :
    (d.defined name a).Sane procedures ∧ d.Onward (d.defined name a) := by
  have gives := Gives.computed h (f := (.copy · a)) limit (.copy _ usable.sound) rfl rfl rfl
    (by simpa [Step.copy, Step.args] using usable)
  have sane := gives.sane
  have number := numberOf_ofNat limit
  have lookup : ∀ other : String, (d.defined name a).locals[other]? =
      if name = other then some (.temp (Int16.ofNat d.temps)) else d.locals[other]? := by
    intro other
    simp only [Draft.defined, Std.HashMap.getElem?_insert, beq_iff_eq]
  have fresh : ∀ other : String, d.locals[other]? ≠ some (.temp (Int16.ofNat d.temps)) := by
    intro other known
    have below := (h.growing.owned _ ⟨other, known⟩).1
    omega
  have keeps : ∀ (other : String) (b : Address), d.locals[other]? = some b →
      (d.defined name a).locals[other]? = some b := by
    intro other b known
    rw [lookup, if_neg]
    · exact known
    · rintro rfl
      rw [free] at known
      cases known
  refine ⟨{ sane with
    growing := sane.growing.own fun t mine => ?_
    locals := fun other b known => ?_
    distinct := fun one two b known known' => ?_ },
    { gives.beside.toOnward with locals := keeps }⟩
  · obtain ⟨other, known⟩ := mine
    rw [lookup] at known
    split at known
    · cases known
      refine .inr ⟨?_, (gives.usable.ready _ rfl).1, ?_⟩
      · show numberOf (Int16.ofNat d.temps) < d.temps + 1
        omega
      · have listing : (d.computed (.copy · a)).graph.listing =
            d.graph.listing.snoc (.copy (.temp (Int16.ofNat d.temps)) a) :=
          Sane.listing_pushed h.opened
        rw [listing]
        exact Listing.not_passes_snoc (h.growing.not_passes_of_le (Nat.le_of_eq number.symm)) rfl
    · exact .inl ⟨other, known⟩
  · rw [lookup] at known
    split at known
    · cases known
      rfl
    · exact h.locals other b known
  · rw [lookup] at known known'
    split at known
    · split at known'
      · rename_i first second
        exact first.symm.trans second
      · cases known
        exact absurd known' (fresh two)
    · split at known'
      · cases known'
        exact absurd known (fresh one)
      · exact h.distinct one two b known known'

/-! ### Compiling keeps drafts sane -/

theorem Executes.define (h : d.Sane procedures) {name : String} (limit : d.temps < numberLimit)
    (usable : d.Usable a) (free : d.locals[name]? = none) :
    Executes procedures d (d.defined name a) := by
  obtain ⟨sane, onward⟩ := h.defined limit usable free
  have size : (d.defined name a).graph.blocks.size = d.graph.blocks.size := Graph.size_pushNewest
  refine ⟨sane, onward, ⟨[.copy (.temp (Int16.ofNat d.temps)) a],
    Graph.steps_pushNewest h.opened, Patching.balanced_quiet (by simp [Step.copy, Step.marker])⟩,
    Nat.le_of_eq size.symm, List.Subset.refl _, fun _ _ mem => .inl mem,
    fun _ low high => ?_, Sane.drawn_pushed rfl⟩
  rw [size] at high
  exact absurd high (Nat.not_lt.2 low)

theorem Executes.ret (h : d.Sane procedures) (usable : d.Usable a) :
    Executes procedures d (d.pushed (.actOn .ret a)) := by
  have sane : (d.pushed (.actOn .ret a)).Sane procedures :=
    h.pushed (.ret usable.sound) rfl rfl (fun _ same => by cases same)
      (by simpa [Step.args] using usable)
  exact .of_beside sane (h.beside_pushed rfl rfl)

/-! ### Branches -/

theorem size_joined {first : Nat} :
    (d.joined first).graph.blocks.size = d.graph.blocks.size + 1 := size_landed

theorem size_alternated {first : Nat} :
    (d.alternated first).graph.blocks.size = d.graph.blocks.size + 1 := size_turned

theorem size_rejoined {first second : Nat} :
    (d.rejoined first second).graph.blocks.size = d.graph.blocks.size + 1 := size_landed

theorem links_joined {first : Nat} :
    (d.joined first).links.toList = d.links.toList ++ [(first - 1, first),
      (d.graph.blocks.size - 1, d.graph.blocks.size), (first - 1, d.graph.blocks.size)] := by
  simp [joined, linkedLater, Draft.landed, Draft.pushed, Draft.opened]

theorem links_alternated {first : Nat} :
    (d.alternated first).links.toList = d.links.toList ++ [(first - 1, first)] := by
  simp [alternated, linkedLater, Draft.turned, Draft.landed, Draft.pushed, Draft.opened]

theorem links_rejoined {first second : Nat} :
    (d.rejoined first second).links.toList = d.links.toList ++ [(first - 1, second),
      (second - 1, d.graph.blocks.size), (d.graph.blocks.size - 1, d.graph.blocks.size)] := by
  simp [rejoined, linkedLater, Draft.landed, Draft.pushed, Draft.opened]

theorem Sane.joined (h : d.Sane procedures) (first : Nat) :
    (d.joined first).Sane procedures ∧ d.Onward (d.joined first) ∧
      (d.joined first).graph.steps = d.graph.steps ++ [.act .nop, .act .patchJumpElse] := by
  obtain ⟨one, onward⟩ := h.linkedLater (first - 1) first
  obtain ⟨two, onward', steps⟩ := one.landed .patchJumpElse
  obtain ⟨three, onward''⟩ := two.linkedLater (d.graph.blocks.size - 1) d.graph.blocks.size
  obtain ⟨four, onward'''⟩ := three.linkedLater (first - 1) d.graph.blocks.size
  exact ⟨four, ((onward.trans onward').trans onward'').trans onward''', steps⟩

theorem Sane.alternated (h : d.Sane procedures) (first : Nat) :
    (d.alternated first).Sane procedures ∧ d.Onward (d.alternated first) ∧
      (d.alternated first).graph.steps = d.graph.steps ++ [.actOn .jump (.immediate 0),
        .act .savePatch, .act .shufflePatch, .act .nop, .act .patchJumpElse] := by
  obtain ⟨one, onward⟩ := h.linkedLater (first - 1) first
  obtain ⟨two, onward', steps⟩ := one.turned
  exact ⟨two, onward.trans onward', steps⟩

theorem Sane.rejoined (h : d.Sane procedures) (first second : Nat) :
    (d.rejoined first second).Sane procedures ∧ d.Onward (d.rejoined first second) ∧
      (d.rejoined first second).graph.steps = d.graph.steps ++
        [.act .nop, .act .patchJump] := by
  obtain ⟨one, onward⟩ := h.linkedLater (first - 1) second
  obtain ⟨two, onward', steps⟩ := one.landed .patchJump
  obtain ⟨three, onward''⟩ := two.linkedLater (second - 1) d.graph.blocks.size
  obtain ⟨four, onward'''⟩ :=
    three.linkedLater (d.graph.blocks.size - 1) d.graph.blocks.size
  exact ⟨four, ((onward.trans onward').trans onward'').trans onward''', steps⟩

/-- The condition of a branch is decided, and the block of its body opened. -/
theorem Sane.entered (h : d.Sane procedures) (usable : d.Usable a) :
    (d.branched a).opened.Sane procedures ∧ d.Onward (d.branched a).opened ∧
      (d.branched a).opened.graph.steps = d.graph.steps ++
        [.actOnTwo .jumpElse a (.immediate 0), .act .savePatch] ∧
      (d.branched a).opened.graph.blocks.size = d.graph.blocks.size + 1 := by
  obtain ⟨branched, onward, steps⟩ := h.branched usable
  obtain ⟨opened, onward'⟩ := branched.opened'
  refine ⟨opened, onward.trans onward', ?_, by rw [size_opened, size_branched]⟩
  rw [← steps]
  exact Graph.steps_addBlock

/-! The rows of these drafts. -/

section

variable {rows : List (List Step)} {row : List Step} {marker : Op}

theorem rows_pushed (h : d.graph.rows = rows ++ [row]) :
    (d.pushed step).graph.rows = rows ++ [row ++ [step]] :=
  Graph.rows_pushNewest h

theorem rows_opened (h : d.graph.rows = rows ++ [row]) :
    d.opened.graph.rows = rows ++ [row] ++ [[]] := by
  rw [← h]
  exact Graph.rows_addBlock

theorem rows_landed (h : d.graph.rows = rows ++ [row]) :
    (d.landed marker).graph.rows = rows ++ [row, [.act .nop, .act marker]] := by
  rw [Draft.landed, rows_pushed (rows_pushed (rows_opened h)), List.append_assoc]
  rfl

end

theorem drawn_entered (drawn : Drawn d.graph.rows) : Drawn (d.branched a).opened.graph.rows := by
  obtain ⟨rows, row, eq, -⟩ := drawn.split
  rw [eq] at drawn
  rw [branched, rows_opened (rows_pushed (rows_pushed eq)), List.append_assoc, List.append_assoc]
  exact .branch a drawn

theorem drawn_landed {marker : Op} (patches : marker = .patchJumpElse ∨ marker = .patchJump)
    (drawn : Drawn d.graph.rows) : Drawn (d.landed marker).graph.rows := by
  obtain ⟨rows, row, eq, -⟩ := drawn.split
  rw [eq] at drawn
  rw [rows_landed eq]
  exact .land patches drawn

theorem drawn_turned (drawn : Drawn d.graph.rows) : Drawn d.turned.graph.rows := by
  obtain ⟨rows, row, eq, -⟩ := drawn.split
  rw [eq] at drawn
  rw [Draft.turned, rows_landed (rows_pushed (rows_pushed (rows_pushed eq))), List.append_assoc,
    List.append_assoc]
  exact .turn drawn

/-- A branch without an alternative, once its condition and its body are compiled. -/
theorem Executes.ifThen {d1 d2 : Draft} (h : d1.Sane procedures) (usable : d1.Usable a)
    (body : Executes procedures (d1.branched a).opened d2) :
    Executes procedures d1 (d2.joined d1.graph.blocks.size) := by
  obtain ⟨-, onward, steps, size⟩ := h.entered usable
  obtain ⟨sane, onward', steps'⟩ := body.sane.joined d1.graph.blocks.size
  have some := h.opened
  have blocks_le := body.blocks_le
  rw [size] at blocks_le
  refine ⟨sane, (onward.trans body.onward).trans onward', ?_, ?_, ?_,
    fun source target mem => ?_, fun id low high => ?_,
    fun rows => drawn_landed (.inl rfl) (body.drawn (drawn_entered rows))⟩
  · obtain ⟨added, steps2, balanced⟩ := body.balanced
    refine ⟨[.actOnTwo .jumpElse a (.immediate 0), .act .savePatch] ++ added ++
      [.act .nop, .act .patchJumpElse], ?_, ?_⟩
    · rw [steps', steps2, steps]
      simp only [List.append_assoc]
    · simp only [List.map_append]
      exact balanced.ifThen
  · rw [size_joined]
    omega
  · rw [links_joined]
    exact fun edge mem => List.mem_append_left _ (body.links mem)
  · rw [links_joined] at mem
    rw [size_joined]
    rcases List.mem_append.1 mem with mem | mem
    · exact (body.ahead source target mem).imp_right fun ⟨lt, within⟩ => ⟨lt, by omega⟩
    · simp only [List.mem_cons, List.not_mem_nil, or_false, Prod.mk.injEq] at mem
      omega
  · rw [size_joined] at high
    rw [links_joined]
    by_cases own : id = d1.graph.blocks.size
    · subst own
      exact ⟨_, List.mem_append_right _ List.mem_cons_self⟩
    · by_cases last : id = d2.graph.blocks.size
      · subst last
        exact ⟨_, List.mem_append_right _ (List.mem_cons_of_mem _ List.mem_cons_self)⟩
      · obtain ⟨source, mem⟩ := body.entered id (by omega) (by omega)
        exact ⟨source, List.mem_append_left _ mem⟩

/-- Two branches, once the condition and both bodies are compiled. -/
theorem Executes.ifElse {d1 d2 d3 : Draft} (h : d1.Sane procedures) (usable : d1.Usable a)
    (body : Executes procedures (d1.branched a).opened d2)
    (body' : Executes procedures (d2.alternated d1.graph.blocks.size) d3) :
    Executes procedures d1 (d3.rejoined d1.graph.blocks.size d2.graph.blocks.size) := by
  obtain ⟨-, onward, steps, size⟩ := h.entered usable
  obtain ⟨-, onward', steps'⟩ := body.sane.alternated d1.graph.blocks.size
  obtain ⟨sane, onward'', steps''⟩ :=
    body'.sane.rejoined d1.graph.blocks.size d2.graph.blocks.size
  have some := h.opened
  have blocks_le := body.blocks_le
  have blocks_le' := body'.blocks_le
  rw [size] at blocks_le
  rw [size_alternated] at blocks_le'
  refine ⟨sane, (((onward.trans body.onward).trans onward').trans body'.onward).trans onward'',
    ?_, ?_, ?_, fun source target mem => ?_, fun id low high => ?_,
    fun rows => drawn_landed (.inr rfl) (body'.drawn (drawn_turned (body.drawn
      (drawn_entered rows))))⟩
  · obtain ⟨added, steps2, balanced⟩ := body.balanced
    obtain ⟨added', steps3, balanced'⟩ := body'.balanced
    refine ⟨[.actOnTwo .jumpElse a (.immediate 0), .act .savePatch] ++ added ++
      [.actOn .jump (.immediate 0), .act .savePatch, .act .shufflePatch, .act .nop,
        .act .patchJumpElse] ++ added' ++ [.act .nop, .act .patchJump], ?_, ?_⟩
    · rw [steps'', steps3, steps', steps2, steps]
      simp only [List.append_assoc]
    · simp only [List.map_append]
      exact balanced.ifElse balanced'
  · rw [size_rejoined]
    omega
  · rw [links_rejoined]
    refine fun edge mem => List.mem_append_left _ (body'.links ?_)
    rw [links_alternated]
    exact List.mem_append_left _ (body.links mem)
  · rw [links_rejoined] at mem
    rw [size_rejoined]
    rcases List.mem_append.1 mem with mem | mem
    · rcases body'.ahead source target mem with mem | ⟨lt, within⟩
      · rw [links_alternated] at mem
        rcases List.mem_append.1 mem with mem | mem
        · exact (body.ahead source target mem).imp_right fun ⟨lt, within⟩ => ⟨lt, by omega⟩
        · simp only [List.mem_singleton, Prod.mk.injEq] at mem
          omega
      · exact .inr ⟨lt, by omega⟩
    · simp only [List.mem_cons, List.not_mem_nil, or_false, Prod.mk.injEq] at mem
      omega
  · rw [size_rejoined] at high
    rw [links_rejoined]
    by_cases inElse : d2.graph.blocks.size + 1 ≤ id ∧ id < d3.graph.blocks.size
    · obtain ⟨source, mem⟩ :=
        body'.entered id (by rw [size_alternated]; exact inElse.1) inElse.2
      exact ⟨source, List.mem_append_left _ mem⟩
    · by_cases last : id = d3.graph.blocks.size
      · subst last
        exact ⟨_, List.mem_append_right _ (List.mem_cons_of_mem _ List.mem_cons_self)⟩
      · by_cases own : id = d2.graph.blocks.size
        · subst own
          exact ⟨_, List.mem_append_right _ List.mem_cons_self⟩
        · have before := body'.links
          rw [links_alternated] at before
          by_cases first : id = d1.graph.blocks.size
          · subst first
            exact ⟨_, List.mem_append_left _
              (before (List.mem_append_right _ List.mem_cons_self))⟩
          · obtain ⟨source, mem⟩ := body.entered id (by omega) (by omega)
            exact ⟨source, List.mem_append_left _ (before (List.mem_append_left _ mem))⟩

mutual

/-- A statement that is accepted leaves a draft that is as it should be. -/
theorem ofStmt_executes (below : c.procedures.Below procedures) (s : Stmt) {d d' : Draft}
    (h : d.Sane procedures) (run : ofStmt c s d = .ok () d') : Executes procedures d d' := by
  cases s with
  | expr e =>
      rw [ofStmt] at run
      obtain ⟨_, d1, evaluated, run⟩ := bind_eq_ok_iff.1 run
      cases run
      have gives := ofExpr_gives below e h evaluated
      exact .of_beside gives.sane gives.beside
  | define name init =>
      rw [ofStmt] at run
      obtain ⟨source, d1, evaluated, limit, free, rfl⟩ := ofDefinition_ok run
      have gives := ofExpr_gives below init h evaluated
      exact (Executes.of_beside gives.sane gives.beside).trans
        (.define gives.sane limit gives.usable free)
  | ifThen cond thenBody =>
      obtain ⟨source, d1, d2, evaluated, body, rfl⟩ := ofStmt_ifThen run
      have gives := ofExpr_gives below cond h evaluated
      have entered := gives.sane.entered gives.usable
      exact (Executes.of_beside gives.sane gives.beside).trans
        (.ifThen gives.sane gives.usable (ofStmt_executes below thenBody entered.1 body))
  | ifElse cond thenBody elseBody =>
      obtain ⟨source, d1, d2, d3, evaluated, body, body', rfl⟩ := ofStmt_ifElse run
      have gives := ofExpr_gives below cond h evaluated
      have entered := gives.sane.entered gives.usable
      have first := ofStmt_executes below thenBody entered.1 body
      have second := ofStmt_executes below elseBody (first.sane.alternated _).1 body'
      exact (Executes.of_beside gives.sane gives.beside).trans
        (.ifElse gives.sane gives.usable first second)
  | ret e =>
      obtain ⟨source, d1, evaluated, rfl⟩ := ofStmt_ret run
      have gives := ofExpr_gives below e h evaluated
      exact (Executes.of_beside gives.sane gives.beside).trans (.ret gives.sane gives.usable)
  | block items =>
      rw [ofStmt] at run
      exact ofBlock_executes below items h run
  | function name params body =>
      rw [ofStmt] at run
      cases run
  | imports name =>
      rw [ofStmt] at run
      cases run
  | stub name params =>
      rw [ofStmt] at run
      cases run
termination_by sizeOf s

theorem ofBlock_executes (below : c.procedures.Below procedures) (items : List Stmt)
    {d d' : Draft} (h : d.Sane procedures) (run : ofBlock c items d = .ok () d') :
    Executes procedures d d' := by
  cases items with
  | nil =>
      cases run
      exact .refl h
  | cons s rest =>
      obtain ⟨d1, first, more⟩ := ofBlock_cons run
      have executes := ofStmt_executes below s h first
      exact executes.trans (ofBlock_executes below rest executes.sane more)
termination_by sizeOf items

end

end Draft

end RegisterCode
