import RegisterCode.Flow.OfTree
import RegisterCode.Proofs.Effect
import RegisterCode.Proofs.Flow.Growing

/-!
The small moves on a draft: when each of them is accepted, and what the draft
is afterwards. What all of them have in common is that a draft only grows.
-/

namespace RegisterCode

/-! ### Steps and blocks -/

namespace Graph

variable {g : Graph} {step : Step} {source target : Nat}

/-- No block of the graph has an edge. -/
def Bare (g : Graph) : Prop :=
  ∀ (id : Nat) (b : Block), g.blocks[id]? = some b → b.truthy = none ∧ b.falsy = none

theorem size_pushNewest : (g.pushNewest step).blocks.size = g.blocks.size := by
  simp [pushNewest, push]

/-- The step goes into the last row. -/
theorem rows_pushNewest {rows : List (List Step)} {row : List Step} (h : g.rows = rows ++ [row]) :
    (g.pushNewest step).rows = rows ++ [row ++ [step]] := by
  obtain ⟨blocks, rest, eq, rfl, mapped⟩ := List.map_eq_append_iff.1 h
  obtain ⟨last, rfl, rfl⟩ := List.map_eq_singleton_iff.1 mapped
  have size : g.blocks.size - 1 = blocks.length := by
    rw [← Array.length_toList, eq]
    simp
  have modified : (g.pushNewest step).blocks.toList = blocks ++ [last.push step] := by
    simp only [pushNewest, push, Array.toList_modify, eq, size]
    rw [List.modify_eq_take_cons_drop (by simp)]
    simp
  rw [Graph.rows, modified]
  simp [Block.push]

theorem steps_pushNewest (h : 0 < g.blocks.size) :
    (g.pushNewest step).steps = g.steps ++ [step] := by
  have length : 0 < g.rows.length := by rwa [rows, List.length_map, Array.length_toList]
  obtain ⟨rows, row, eq⟩ : ∃ rows row, g.rows = rows ++ [row] :=
    ⟨_, _, (List.dropLast_append_getLast (List.ne_nil_of_length_pos length)).symm⟩
  rw [steps_eq_flatten, steps_eq_flatten, rows_pushNewest eq, eq]
  simp

theorem Bare.pushNewest (h : g.Bare) : (g.pushNewest step).Bare := by
  intro id b found
  simp only [Graph.pushNewest, push, Array.getElem?_modify] at found
  split at found
  · obtain ⟨b', here, rfl⟩ := Option.map_eq_some_iff.1 found
    exact h id b' here
  · exact h id b found

theorem size_addBlock : g.addBlock.blocks.size = g.blocks.size + 1 := by
  simp [addBlock]

theorem steps_addBlock : g.addBlock.steps = g.steps := by
  simp [steps, addBlock, Block.empty]

theorem rows_addBlock : g.addBlock.rows = g.rows ++ [[]] := by
  simp [rows, addBlock, Block.empty]

theorem Bare.addBlock (h : g.Bare) : g.addBlock.Bare := by
  intro id b found
  simp only [Graph.addBlock, Array.getElem?_push] at found
  split at found
  · cases found
    exact ⟨rfl, rfl⟩
  · exact h id b found

theorem bare_entry : Graph.empty.addBlock.Bare :=
  Bare.addBlock fun id b found => by simp [Graph.empty] at found

end Graph

namespace Draft

variable {d d' : Draft} {step : Step} {a : Address}

/-- The draft with one more step in its newest block. -/
def pushed (step : Step) (d : Draft) : Draft :=
  { d with current := some (d.graph.pushNewest step) }

/-- The draft with one more temporary, and a step that writes it. -/
def computed (step : Address → Step) (d : Draft) : Draft :=
  { d with
    temps := d.temps + 1
    current := some (d.graph.pushNewest (step (.temp (Int16.ofNat d.temps)))) }

/-- The draft with one more block. -/
def opened (d : Draft) : Draft := { d with current := some d.graph.addBlock }

@[simp] theorem graph_pushed : (d.pushed step).graph = d.graph.pushNewest step := rfl

@[simp] theorem graph_computed {f : Address → Step} :
    (d.computed f).graph = d.graph.pushNewest (f (.temp (Int16.ofNat d.temps))) := rfl

@[simp] theorem graph_opened : d.opened.graph = d.graph.addBlock := rfl

theorem graph_of_some {g : Graph} (at_hand : d.current = some g) : d.graph = g := by
  rw [graph, at_hand]
  rfl

theorem graph_of_none (none : d.current = none) : d.graph = .empty := by
  rw [graph, none]
  rfl

/-- There is a function at hand where there is a block. -/
theorem current_of_opened (opened : 0 < d.graph.blocks.size) : d.current = some d.graph := by
  cases at_hand : d.current with
  | none =>
      rw [graph_of_none at_hand] at opened
      exact absurd opened (Nat.lt_irrefl 0)
  | some g => rw [graph_of_some at_hand]

/-- A change of the graph at hand that keeps the blocks. -/
theorem blocks_graph_map {f : Graph → Graph} (same : ∀ g, (f g).blocks = g.blocks) :
    ({ d with current := d.current.map f } : Draft).graph.blocks = d.graph.blocks := by
  rw [graph, graph]
  cases d.current with
  | none => rfl
  | some g => exact same g

/-! ### When a move is accepted -/

theorem newTemp_ok : newTemp d = .ok a d' ↔
    d.temps < numberLimit ∧ a = .temp (Int16.ofNat d.temps) ∧
      d' = { d with temps := d.temps + 1 } := by
  unfold newTemp
  split
  · simp only [reduceCtorEq, false_iff]
    omega
  · simp only [EStateM.Result.ok.injEq]
    exact ⟨fun ⟨same, rest⟩ => ⟨by omega, same.symm, rest.symm⟩,
      fun ⟨_, same, rest⟩ => ⟨same.symm, rest.symm⟩⟩

theorem push_ok {u : Unit} : push step d = .ok u d' ↔
    0 < d.graph.blocks.size ∧ d' = d.pushed step := by
  constructor
  · intro run
    unfold push at run
    split at run
    · cases run
    · rename_i g at_hand
      rw [pushed, graph_of_some at_hand]
      split at run
      · cases run
      · rename_i some
        cases run
        exact ⟨Nat.pos_of_ne_zero fun zero => some (Array.isEmpty_iff_size_eq_zero.2 zero), rfl⟩
  · rintro ⟨opened, rfl⟩
    have some : ¬ d.graph.blocks.isEmpty = true := fun empty =>
      absurd (Array.isEmpty_iff_size_eq_zero.1 empty) (Nat.ne_of_gt opened)
    simp only [push, current_of_opened opened, some]
    rfl

/-- A new temporary and the step that writes it. -/
theorem compute_ok {f : Address → Step} :
    (newTemp >>= fun dest => push (f dest) >>= fun _ => pure dest) d = .ok a d' ↔
      d.temps < numberLimit ∧ 0 < d.graph.blocks.size ∧ a = .temp (Int16.ofNat d.temps) ∧
        d' = d.computed f := by
  simp only [bind_eq_ok_iff, newTemp_ok, push_ok, pure_apply, EStateM.Result.ok.injEq]
  constructor
  · rintro ⟨_, _, ⟨lt, rfl, rfl⟩, _, _, ⟨some, rfl⟩, rfl, rfl⟩
    exact ⟨lt, some, rfl, rfl⟩
  · rintro ⟨lt, some, rfl, rfl⟩
    exact ⟨_, _, ⟨lt, rfl, rfl⟩, ⟨⟩, _, ⟨some, rfl⟩, rfl, rfl⟩

theorem copyToTemp_ok {u : Unit} : copyToTemp a d = .ok u d' ↔
    d.temps < numberLimit ∧ 0 < d.graph.blocks.size ∧ d' = d.computed (.copy · a) := by
  simp only [copyToTemp, bind_eq_ok_iff, newTemp_ok, push_ok]
  constructor
  · rintro ⟨_, _, ⟨lt, rfl, rfl⟩, some, rfl⟩
    exact ⟨lt, some, rfl⟩
  · rintro ⟨lt, some, rfl⟩
    exact ⟨_, _, ⟨lt, rfl, rfl⟩, some, rfl⟩

theorem newBlock_ok {id : BlockId} : newBlock d = .ok id d' ↔
    d.current.isSome ∧ id = d.graph.blocks.size ∧ d' = d.opened := by
  unfold newBlock
  split
  · rename_i none
    simp [none]
  · rename_i g at_hand
    rw [opened, graph_of_some at_hand]
    simp only [EStateM.Result.ok.injEq, at_hand, Option.isSome_some, true_and]
    exact ⟨fun ⟨same, rest⟩ => ⟨same.symm, rest.symm⟩, fun ⟨same, rest⟩ => ⟨same.symm, rest.symm⟩⟩

theorem newestBlock_ok {id : BlockId} : newestBlock d = .ok id d' ↔
    0 < d.graph.blocks.size ∧ id = d.graph.blocks.size - 1 ∧ d' = d := by
  constructor
  · intro run
    unfold newestBlock Graph.newest? at run
    split at run
    · cases run
    · rename_i g at_hand
      rw [graph_of_some at_hand]
      by_cases empty : g.blocks.isEmpty = true
      · rw [if_pos empty] at run
        cases run
      · rw [if_neg empty] at run
        cases run
        exact ⟨Nat.pos_of_ne_zero fun zero => empty (Array.isEmpty_iff_size_eq_zero.2 zero), rfl,
          rfl⟩
  · rintro ⟨opened, rfl, rfl⟩
    have some : ¬ d'.graph.blocks.isEmpty = true := fun empty =>
      absurd (Array.isEmpty_iff_size_eq_zero.1 empty) (Nat.ne_of_gt opened)
    simp only [newestBlock, current_of_opened opened, Graph.newest?, some]
    rfl

/-- What interning a literal comes to: its address is known, or it becomes the
next constant. -/
theorem intern_ok {lexeme : String} {v : Value} (h : intern lexeme v d = .ok a d') :
    (d' = d ∧ d.globals[lexeme]? = some a) ∨
      (d.globals[lexeme]? = none ∧ d.constants.size < numberRange ∧
        a = .constant (Int16.ofNat d.constants.size) ∧
        d' = { d with
          constants := d.constants.push v
          globals := d.globals.insert lexeme a }) := by
  unfold intern at h
  split at h
  · rename_i a' known
    cases h
    exact .inl ⟨rfl, known⟩
  · rename_i unknown
    split at h
    · cases h
    · rename_i within
      cases h
      exact .inr ⟨unknown, Nat.not_le.1 within, rfl, rfl⟩

/-! ### Growing drafts -/

/-- The draft goes on in the same function: its steps, temporaries, constants
and names become more, and what it knows of the functions stays. -/
structure Onward (d d' : Draft) : Prop where
  graphs : d'.graphs = d.graphs
  functions : d'.functions = d.functions
  main : d'.main = d.main
  params : d'.graph.paramCount = d.graph.paramCount
  temps_le : d.temps ≤ d'.temps
  steps : d.graph.steps <+: d'.graph.steps
  constants : d.constants.toList <+: d'.constants.toList
  globals : ∀ (name : String) (a : Address), d.globals[name]? = some a →
    d'.globals[name]? = some a
  locals : ∀ (name : String) (a : Address), d.locals[name]? = some a →
    d'.locals[name]? = some a
  ready : ∀ t, d.graph.listing.Ready t → d'.graph.listing.Ready t

namespace Onward

theorem refl (d : Draft) : d.Onward d where
  graphs := rfl
  functions := rfl
  main := rfl
  params := rfl
  temps_le := Nat.le_refl _
  steps := List.prefix_rfl
  constants := List.prefix_rfl
  globals _ _ known := known
  locals _ _ known := known
  ready _ known := known

theorem trans {d'' : Draft} (h : d.Onward d') (h' : d'.Onward d'') : d.Onward d'' where
  graphs := h'.graphs.trans h.graphs
  functions := h'.functions.trans h.functions
  main := h'.main.trans h.main
  params := h'.params.trans h.params
  temps_le := Nat.le_trans h.temps_le h'.temps_le
  steps := h.steps.trans h'.steps
  constants := h.constants.trans h'.constants
  globals name a known := h'.globals name a (h.globals name a known)
  locals name a known := h'.locals name a (h.locals name a known)
  ready t known := h'.ready t (h.ready t known)

theorem size_constants_le (h : d.Onward d') : d.constants.size ≤ d'.constants.size := by
  have length := h.constants.length_le
  rwa [Array.length_toList, Array.length_toList] at length

end Onward

/-- The draft goes on in the same block, and no local is added: that is what
expressions do. Their steps have nothing to do with jumps. -/
structure Beside (d d' : Draft) : Prop extends Onward d d' where
  same_locals : d'.locals = d.locals
  links : d'.links = d.links
  blocks : d'.graph.blocks.size = d.graph.blocks.size
  quiet : ∃ added, d'.graph.steps = d.graph.steps ++ added ∧
    ∀ here ∈ added, Step.marker here = .condensed
  drawn : Drawn d.graph.rows → Drawn d'.graph.rows

namespace Beside

theorem refl (d : Draft) : d.Beside d where
  toOnward := .refl d
  same_locals := rfl
  links := rfl
  blocks := rfl
  quiet := ⟨[], (List.append_nil _).symm, by simp⟩
  drawn := id

theorem trans {d'' : Draft} (h : d.Beside d') (h' : d'.Beside d'') : d.Beside d'' where
  toOnward := h.toOnward.trans h'.toOnward
  same_locals := h'.same_locals.trans h.same_locals
  links := h'.links.trans h.links
  blocks := h'.blocks.trans h.blocks
  quiet := by
    obtain ⟨added, steps, quiet⟩ := h.quiet
    obtain ⟨added', steps', quiet'⟩ := h'.quiet
    refine ⟨added ++ added', by rw [steps', steps, List.append_assoc], fun here mem => ?_⟩
    exact (List.mem_append.1 mem).elim (quiet here) (quiet' here)
  drawn rows := h'.drawn (h.drawn rows)

end Beside

end Draft

end RegisterCode
