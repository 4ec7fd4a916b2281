import Mathlib.Logic.Relation
import RegisterCode.Proofs.Flow.Routes

/-!
What the graphs of an accepted forest have in common. Blocks and edges are those that the
conditionals of the body ask for; a jump stands only at the end of its block; and the
operands of every step are there when the step is reached.
-/

namespace RegisterCode

namespace Graph

/-- There is an edge from one block to another. -/
def Edge (g : Graph) (id id' : Nat) : Prop :=
  ∃ b, g.blocks[id]? = some b ∧ id' ∈ b.successors

/-- A well-formed graph of a function with the given body, next to a pool of the given
size. -/
structure WellFormed (g : Graph) (pool : Nat) (body : Stmt) : Prop where
  /-- The entry, and the blocks that the body opens. -/
  size : g.blocks.size = body.opens + 1
  ahead : ∀ id id', g.Edge id id' → id < id' ∧ id' < g.blocks.size
  reached : ∀ id < g.blocks.size, Relation.ReflTransGen g.Edge 0 id
  /-- The blocks that are left along two edges are those that a conditional ends. -/
  falsy : ∀ (id : Nat) (b : Block), g.blocks[id]? = some b →
    (b.falsy.isSome ↔ ∃ fork ∈ body.forks 0, fork.condition = id)
  /-- They are also those in which there is a conditional jump. -/
  jumpElse : ∀ (id : Nat) (b : Block), g.blocks[id]? = some b →
    (b.falsy.isSome ↔ ∃ step ∈ b.steps, step.marker = .jumpElse)
  /-- Such a block is left for the body of the conditional, or for what comes otherwise. -/
  forked : ∀ fork ∈ body.forks 0, ∃ b, g.blocks[fork.condition]? = some b ∧
    b.truthy = some fork.body ∧ b.falsy = some fork.otherwise
  /-- Only patch markers come behind a jump in its block. -/
  jumps : ∀ (id : Nat) (b : Block), g.blocks[id]? = some b →
    ∀ (i j : Nat) (here there : Step), b.steps[i]? = some here → here.marker.IsJump → i < j →
      b.steps[j]? = some there → ∃ op, there = .act op ∧ op.IsPatch
  constants : ∀ step ∈ g.steps, ∀ a ∈ step.args, a.space = .constant →
    0 ≤ a.id ∧ a.id.toNatClampNeg < pool
  /-- In the order of the blocks, a temporary is written by an earlier step than any that
  reads it, unless it holds a parameter. -/
  written : ∀ (k : Nat) (t : Int16), t ∈ g.listing.reads k →
    Listing.IsParam g.paramCount.toNat t ∨ ∃ i < k, g.listing.writes? i = some t

variable {g : Graph} {pool functions procedures : Nat} {body : Stmt}

/-- Every block of a graph that leads forward is reached from the first one. -/
theorem Forward.reached (h : g.Forward) {id : Nat} (lt : id < g.blocks.size) :
    Relation.ReflTransGen g.Edge 0 id := by
  induction id using Nat.strongRecOn with
  | _ id ih =>
      rcases Nat.eq_zero_or_pos id with rfl | later
      · exact .refl
      · obtain ⟨before, less, b, found, mem⟩ := h.entered id later lt
        exact (ih before less (Nat.lt_trans less lt)).tail ⟨b, found, mem⟩

theorem getElem?_rows {id : Nat} {b : Block} (found : g.blocks[id]? = some b) :
    g.rows[id]? = some b.steps.toList := by
  rw [rows, List.getElem?_map, Array.getElem?_toList, found]
  rfl

theorem Charted.jumpElse_iff (h : g.Charted body) {id : Nat} {b : Block}
    (found : g.blocks[id]? = some b) :
    b.falsy.isSome ↔ ∃ step ∈ b.steps, step.marker = .jumpElse := by
  have row := getElem?_rows found
  have marker : ∀ {j : Nat}, j < b.steps.size →
      g.listing.markers[g.offset id + j]? = b.steps[j]?.map Step.marker := by
    intro j lt
    rw [Listing.markers, List.getElem?_map]
    show g.steps[_]?.map _ = _
    rw [steps_offset row (by rwa [Array.length_toList]), Array.getElem?_toList]
  rw [h.falsy_iff found]
  constructor
  · rintro ⟨fork, mem, rfl⟩
    obtain ⟨k, jump, holds⟩ := h.routed.forked fork mem
    obtain ⟨row', j, row', lt, rfl⟩ := holds.exists_row
    rw [row] at row'
    cases row'
    rw [Array.length_toList] at lt
    rw [marker lt, Array.getElem?_eq_getElem lt] at jump
    exact ⟨_, Array.getElem_mem lt, Option.some.inj jump⟩
  · rintro ⟨step, mem, jump⟩
    obtain ⟨j, lt, rfl⟩ := Array.mem_iff_getElem.1 mem
    have at_ := marker lt
    rw [Array.getElem?_eq_getElem lt, Option.map_some, jump] at at_
    have inside := (List.getElem?_eq_some_iff.1 at_).1
    rw [Listing.markers, List.length_map] at inside
    obtain ⟨fork, mem, holds, -⟩ := h.routed.branch _ (Nat.zero_le _) inside at_
    exact ⟨fork, mem, holds.unique (holds_offset row (by rwa [Array.length_toList]))⟩

end Graph

/-- The operands of a legal step can be read. -/
theorem Step.Legal.sound {pool functions procedures : Nat} {step : Step}
    (h : step.Legal pool functions procedures) : ∀ a ∈ step.args, a.Sound pool := by
  cases h with
  | copy t sound | neg t sound | ret sound => simpa [Step.args] using sound
  | binary t op sound sound' => simpa [Step.args] using ⟨sound, sound'⟩
  | jumpElse sound => simpa [Step.args] using ⟨sound, trivial⟩
  | jump | call named known some | nativeCall named known some =>
      simp [Step.args, Address.Sound, Address.immediate]
  | nop | savePatch | shufflePatch | patchJump | patchJumpElse | condensed => simp [Step.args]

namespace Graph

variable {g : Graph} {pool functions procedures : Nat} {body : Stmt}

theorem Charted.wellFormed (charted : g.Charted body) (forward : g.Forward) (drawn : Drawn g.rows)
    (orderly : g.listing.Orderly pool functions procedures) : g.WellFormed pool body where
  size := charted.size
  ahead := by
    rintro id id' ⟨b, found, mem⟩
    exact forward.ahead id b found id' mem
  reached _ := forward.reached
  falsy _ _ := charted.falsy_iff
  jumpElse _ _ := charted.jumpElse_iff
  forked _ := charted.forked
  jumps id b found i j here there at_ isJump lt at_' := by
    have complete := drawn.complete (List.mem_of_getElem? (getElem?_rows found))
    exact complete.jump i j here there (by rwa [Array.getElem?_toList]) isJump lt
      (by rwa [Array.getElem?_toList])
  constants step mem a mem' constant := by
    obtain ⟨k, found⟩ := List.mem_iff_getElem?.1 mem
    have sound := (orderly.legal k step found).sound a mem'
    rwa [Address.Sound, constant] at sound
  written k t reads := by
    refine (orderly.read k t reads).imp_right fun mem => ?_
    exact (Listing.mem_names_iff.1 mem).2

end Graph

/-- A forest is never rejected for the compiler's own bookkeeping of blocks and edges. If it
is accepted, there is a graph for each of its functions, and the graph is well-formed. -/
theorem wellFormed_of_ofForest (procedures : Registry) (sources : Array String)
    (forest : List SourceUnit) :
    (∀ rejections, Bundle.ofForest procedures sources forest = .error rejections →
      ∀ r ∈ rejections, ¬ r.AboutBlocks) ∧
    ∀ b, Bundle.ofForest procedures sources forest = .ok b →
      b.graphs.size = (declarations sources forest).length ∧
      ∀ (i : Nat) (f : Declaration) (g : Graph), (declarations sources forest)[i]? = some f →
        b.graphs[i]? = some g → g.WellFormed b.constants.size f.body := by
  refine ⟨fun rejections rejected => ?_, fun b accepted => ?_⟩
  · have known := Draft.ofForest_rejections procedures sources forest
    rw [Bundle.ofForest, Draft.bundle?] at rejected
    split at rejected
    · cases rejected
    · cases rejected
      exact known
  · have compiled := Draft.compiled_of_ofForest (fun _ id _ => id.toNat_lt) accepted
    obtain ⟨size, charted⟩ := Graph.charted_of_ofForest accepted
    refine ⟨size, fun i f g declared found => ?_⟩
    have mem := Array.mem_of_getElem? found
    exact (charted i f g declared found).wellFormed (compiled.forward g mem)
      (compiled.drawn g mem) (compiled.orderly g mem)

open Sample in
theorem wellFormed_of_sample :
    Bundle.ofForest (.ofTable Procedure.standard) #[text] [⟨.ret (atom .int 15 17), 0⟩] =
        .error #[.outsideFunction "return"] ∧
      (¬ (Rejection.outsideFunction "return").AboutBlocks) ∧
      Bundle.ofForest (.ofTable Procedure.standard) #[text] forest = .ok bundle ∧
      ∃ f g, (declarations #[text] forest)[1]? = some f ∧ bundle.graphs[1]? = some g ∧
        f.body.forks 0 = [⟨0, 1, 2⟩] ∧ g.WellFormed bundle.constants.size f.body := by
  have rejected : Bundle.ofForest (.ofTable Procedure.standard) #[text]
      [⟨.ret (atom .int 15 17), 0⟩] = .error #[.outsideFunction "return"] := rfl
  refine ⟨rejected, (wellFormed_of_ofForest _ _ _).1 _ rejected _ (by simp), accepted, _, _, rfl,
    rfl, rfl, ((wellFormed_of_ofForest _ _ _).2 _ accepted).2 1 _ _ rfl rfl⟩

end RegisterCode
