import Mathlib
import RegisterCode.Proofs.Flow.Settling

/-!
Condensing a graph, whether it was compiled or drawn by hand. It is refused if there is no entry,
or an edge that leads nowhere, and is a number of rewrites in place otherwise. One pass does all
there is to do: condensing the graph again changes nothing.
-/

namespace RegisterCode

/-! ### The scan of one block -/

namespace Tally

theorem bypassed_foldl {f : Tally → Address → Tally} (keeps : ∀ t a, (f t a).bypassed = t.bypassed)
    (as : List Address) (t : Tally) : (as.foldl f t).bypassed = t.bypassed :=
  List.foldlRecOn (motive := fun t' : Tally => t'.bypassed = t.bypassed) _ _ rfl
    fun t' same a _ => (keeps t' a).trans same

theorem bypassed_ofGraph (g : Graph) : (ofGraph g).bypassed = 0 := by
  have reads (t : Tally) (a : Address) : (countRead t a).bypassed = t.bypassed := by
    rw [countRead]
    split <;> rfl
  have writes (t : Tally) (a : Address) : (countWrite t a).bypassed = t.bypassed := by
    rw [countWrite]
    split <;> rfl
  rw [ofGraph_eq_foldl]
  refine List.foldlRecOn (motive := fun t : Tally => t.bypassed = 0) _ _ rfl fun t none step _ => ?_
  rw [countStep, bypassed_foldl writes, bypassed_foldl reads, none]

end Tally

theorem size_mergeAt (pinned : Array Bool) (state : Array Step × Tally) (position : Nat) :
    (mergeAt pinned state position).1.size = state.1.size := by
  unfold mergeAt
  split
  · rw [Array.size_setIfInBounds, Array.size_setIfInBounds]
  · rfl

theorem size_condenseSteps (steps : Array Step) (t : Tally) :
    (condenseSteps steps t).1.size = steps.size :=
  List.foldlRecOn (motive := fun state => state.1.size = steps.size) _ _ rfl
    fun state same position _ => (size_mergeAt _ state position).trans same

namespace Graph

variable {g g' : Graph} {id n : Nat} {b : Block} {row : Array Step} {t : Tally}
  {pinned : Array Bool}

/-- A number of rewrites have led to a graph, and the tally that goes with it has kept count. -/
def Passed (g : Graph) (state : Graph × Tally) : Prop :=
  state.2.Exact state.1.steps ∧
    ∃ middles, g.Rewrites middles state.1 ∧ state.2.bypassed = middles.length

theorem Passed.start (g : Graph) : g.Passed (g, .ofGraph g) :=
  ⟨Tally.exact_ofGraph g, [], .nil, Tally.bypassed_ofGraph g⟩

theorem Passed.merge {origin position : Nat} {middle : Int16} {dest : Address} {writer : Step}
    {merge : Merge} (h : g.Passed (g', t)) (reached : Relation.ReflTransGen g.Edge 0 id)
    (found : g'.blocks[id]? = some b)
    (site : g'.Site b.steps origin position middle dest writer merge) :
    g.Passed (g'.withRow id b (merge.into b.steps origin position), t.bypass (.temp middle)) := by
  obtain ⟨exact, middles, rewrites, bypassed⟩ := h
  refine ⟨exact.bypass (site.reads found) (site.writes found) site.read site.written,
    _, rewrites.snoc (site.rewrite ?_ found), ?_⟩
  · rwa [rewrites.spec.1.edge]
  · rw [List.length_append, List.length_singleton, ← bypassed]
    rfl

/-- The first `n` steps of a block have been looked at. Nothing is left to merge there, and no
more than before in the other blocks. -/
structure Scanned (first g : Graph) (id : Nat) (b : Block) (pinned : Array Bool) (n : Nat)
    (state : Array Step × Tally) : Prop where
  passed : first.Passed (g.withRow id b state.1, state.2)
  pins : ∀ i, pinned.getD i false = (argumentCopies state.1).getD i false
  temps : g.WritesTemps → (g.withRow id b state.1).WritesTemps
  settled : g.WritesTemps → ∀ j < n, (g.withRow id b state.1).Settled id j
  others : ∀ id' j, id' ≠ id → g.Settled id' j → (g.withRow id b state.1).Settled id' j

theorem Scanned.mergeAt {first : Graph} {state : Array Step × Tally}
    (reached : Relation.ReflTransGen first.Edge 0 id) (found : g.blocks[id]? = some b)
    (h : Scanned first g id b pinned n state) :
    Scanned first g id b pinned (n + 1) (RegisterCode.mergeAt pinned state n) := by
  obtain ⟨row, t⟩ := state
  obtain ⟨passed, pins, temps, settled, others⟩ := h
  dsimp only at passed pins temps settled others
  have found' := getElem?_withRow found row
  have sites {origin : Nat} {a : Address} {merge : Merge} :
      mergeAt? pinned row t n = some (origin, a, merge) ↔ ∃ middle dest writer, a = .temp middle ∧
        (g.withRow id b row).Site row origin n middle dest writer merge :=
    mergeAt?_eq_some_iff passed.1 found' pins
  rw [RegisterCode.mergeAt]
  split
  · rename_i origin a merge merges
    obtain ⟨middle, dest, writer, rfl, site⟩ := sites.1 merges
    have next := withRow_withRow g id b row (merge.into row origin n)
    refine ⟨?_, fun i => (pins i).trans (site.pins i).symm, fun only => ?_, fun only j lt => ?_,
      fun id' j other before => ?_⟩
    · have passed' := passed.merge reached found' site
      rwa [next] at passed'
    · have temps' := site.writesTemps (temps only) found'
      rwa [next] at temps'
    · have settled' := site.settled (temps only) found' (settled only) (Nat.le_of_lt_succ lt)
      rwa [next] at settled'
    · have others' := site.settled_other found' other (others id' j other before)
      rwa [next] at others'
  · rename_i none
    refine ⟨passed, pins, temps, fun only j lt => ?_, others⟩
    rcases Nat.lt_succ_iff_lt_or_eq.1 lt with lt | rfl
    · exact settled only j lt
    · intro b' origin middle dest writer merge found'' site
      rw [found'] at found''
      cases found''
      have merges := sites.2 ⟨middle, dest, writer, rfl, site⟩
      rw [none] at merges
      cases merges

/-- Condensing a block leaves nothing to merge in it. -/
theorem Passed.condenseBlock {state state' : Graph × Tally} (h : g.Passed state)
    (reached : Relation.ReflTransGen g.Edge 0 id)
    (condenses : Graph.condenseBlock state id = some state') :
    g.Passed state' ∧
      (state.1.WritesTemps → state'.1.WritesTemps ∧
        ∀ id' j, id' = id ∨ state.1.Settled id' j → state'.1.Settled id' j) := by
  obtain ⟨g1, t⟩ := state
  cases found : g1.blocks[id]? with
  | none =>
      rw [Graph.condenseBlock, found] at condenses
      cases condenses
  | some b =>
      have start : Scanned g g1 id b (argumentCopies b.steps) 0 (b.steps, t) := by
        refine ⟨?_, fun _ => rfl, ?_, fun _ j lt => absurd lt (Nat.not_lt_zero j), ?_⟩
        all_goals rw [withRow_self found]
        · exact h
        · exact fun only => only
        · exact fun _ _ _ before => before
      have scanned (n : Nat) : Scanned g g1 id b (argumentCopies b.steps) n
          ((List.range n).foldl (RegisterCode.mergeAt (argumentCopies b.steps)) (b.steps, t)) := by
        induction n with
        | zero => exact start
        | succ n ih =>
            rw [List.range_succ, List.foldl_append]
            exact ih.mergeAt reached found
      have last := scanned b.steps.size
      obtain rfl : (g1.withRow id b (condenseSteps b.steps t).1, (condenseSteps b.steps t).2) =
          state' := by
        rw [Graph.condenseBlock, found] at condenses
        exact Option.some.inj condenses
      refine ⟨last.passed, fun only => ⟨last.temps only, fun id' j which => ?_⟩⟩
      by_cases same : id' = id
      · subst same
        rcases Nat.lt_or_ge j b.steps.size with lt | beyond
        · exact last.settled only j lt
        · intro b' origin middle dest writer merge found' site
          rw [getElem?_withRow found] at found'
          cases found'
          have lt := (Array.getElem?_eq_some_iff.1 site.copy).1
          rw [size_condenseSteps] at lt
          omega
      · exact last.others id' j same (which.resolve_left same)

/-! ### The blocks that the pass comes to -/

theorem edge_iff {source target : Nat} : g.Edge source target ↔ target ∈ g.successors source := by
  rw [Edge, successors]
  cases g.blocks[source]? with
  | none => simp
  | some b => simp

/-- The pass comes only to blocks that can be reached. -/
theorem reached_of_mem_reachable (mem : id ∈ g.reachable) : Relation.ReflTransGen g.Edge 0 id := by
  refine mem_depthFirst (P := Relation.ReflTransGen g.Edge 0)
    (fun id reached s mem => reached.tail (edge_iff.2 mem)) (fun id mem => ?_) (by simp) id mem
  rw [List.mem_singleton] at mem
  subst mem
  exact .refl

theorem depthFirst_congr (same : g'.successors = g.successors) (waiting : List Nat)
    (seen : Array Bool) (order : Array Nat) :
    g'.depthFirst n waiting seen order = g.depthFirst n waiting seen order := by
  induction n generalizing waiting seen order with
  | zero => rfl
  | succ n ih =>
      cases waiting with
      | nil => rfl
      | cons id waiting => rw [depthFirst, depthFirst, same, ih, ih]

namespace InPlace

theorem reachable (h : g.InPlace g') : g'.reachable = g.reachable := by
  have same : g'.successors = g.successors := by
    funext id
    rw [Graph.successors, Graph.successors, ← Array.getElem?_map, ← Array.getElem?_map,
      h.successors]
  rw [Graph.reachable, Graph.reachable, h.size, depthFirst_congr same]

theorem isCondensable (h : g.InPlace g') : g'.isCondensable = g.isCondensable := by
  have edges (g : Graph) : g.edgesInside =
      (g.blocks.map Block.successors).all fun targets => targets.all (· < g.blocks.size) := by
    rw [edgesInside, Array.all_map]
    rfl
  have empty (g : Graph) : g.blocks.isEmpty = decide (g.blocks.size = 0) := rfl
  rw [Graph.isCondensable, Graph.isCondensable, edges, edges, h.successors, empty, empty, h.size]

end InPlace

theorem isCondensable_eq_false_iff :
    g.isCondensable = false ↔
      g.blocks = #[] ∨ ∃ source target, g.Edge source target ∧ g.blocks[target]? = none := by
  rw [isCondensable, Bool.and_eq_false_iff, Bool.not_eq_false', Array.isEmpty_iff,
    ← Bool.not_eq_true, edgesInside, Array.all_eq_true]
  refine or_congr_right ?_
  constructor
  · intro outside
    by_contra inside
    refine outside fun id lt => List.all_eq_true.2 fun target mem => decide_eq_true ?_
    by_contra beyond
    exact inside ⟨id, target, ⟨_, Array.getElem?_eq_getElem lt, mem⟩,
      Array.getElem?_eq_none (Nat.le_of_not_lt beyond)⟩
  · rintro ⟨source, target, ⟨b, found, mem⟩, missing⟩ inside
    obtain ⟨lt, rfl⟩ := Array.getElem?_eq_some_iff.1 found
    have within := of_decide_eq_true (List.all_eq_true.1 (inside source lt) target mem)
    exact Nat.lt_irrefl _ (Nat.lt_of_lt_of_le within (Array.getElem?_eq_none_iff.1 missing))

/-! ### The whole pass -/

/-- The pass over a graph is a number of rewrites, and it leaves nothing to merge in the blocks
that it has come to. -/
theorem passed_condense? {count : Nat} (h : g.condense? = some (g', count)) :
    (∃ middles, g.Rewrites middles g' ∧ count = middles.length) ∧
      (g.WritesTemps → ∀ id ∈ g.reachable, ∀ j, g'.Settled id j) := by
  obtain ⟨-, t, rfl, run⟩ := condense?_eq_some_iff.1 h
  obtain ⟨passed, settled⟩ := foldlM_condenseBlock_induction
    (P := fun done state => g.Passed state ∧ (g.WritesTemps → state.1.WritesTemps ∧
      ∀ id ∈ done, ∀ j, state.1.Settled id j))
    ⟨.start g, fun only => ⟨only, List.forall_mem_nil _⟩⟩
    (fun done id before after mem ⟨passed, settled⟩ condenses => by
      obtain ⟨passed', keeps⟩ := passed.condenseBlock
        (reached_of_mem_reachable (Array.mem_toList_iff.1 mem)) condenses
      refine ⟨passed', fun only => ?_⟩
      obtain ⟨temps, before⟩ := settled only
      obtain ⟨temps', now⟩ := keeps temps
      refine ⟨temps', fun id' mem j => now id' j ?_⟩
      rw [List.mem_append, List.mem_singleton] at mem
      exact mem.symm.imp_right fun mem => before id' mem j) run
  exact ⟨passed.2, fun only id mem => (settled only).2 id (Array.mem_toList_iff.2 mem)⟩

/-- Where nothing is left to merge, condensing a block changes nothing. -/
theorem condenseBlock_of_settled {state : Graph × Tally} (exact : t.Exact g.steps)
    (settled : ∀ j, g.Settled id j) (condenses : condenseBlock (g, t) id = some state) :
    state = (g, t) := by
  rw [condenseBlock] at condenses
  split at condenses
  · rename_i b found
    have stays : condenseSteps b.steps t = (b.steps, t) := by
      refine List.foldlRecOn (motive := fun state => state = (b.steps, t)) _ _ rfl
        fun state same position _ => ?_
      subst same
      rw [mergeAt]
      split
      · rename_i origin a merge merges
        obtain ⟨middle, dest, writer, -, site⟩ :=
          (mergeAt?_eq_some_iff exact found fun _ => rfl).1 merges
        exact absurd site (settled position b origin middle dest writer merge found)
      · rfl
    rw [stays] at condenses
    cases condenses
    exact congrArg (·, t) (withRow_self found)
  · cases condenses

/-- Condensing works in place. A graph is refused just when it has no entry or an edge that leads
nowhere, and then it stays in its bundle as it is. Any other graph takes a number of rewrites. Each
of them makes one more step neutral, and the temporary that it forwards is mentioned nowhere any
more. In the end the blocks, their edges and the places of their steps are the same, no block that
is out of reach has changed, and what has become of each step is known. -/
theorem condensing_in_place (g : Graph) :
    (g.condense? = none ↔
      g.blocks = #[] ∨ ∃ source target, g.Edge source target ∧ g.blocks[target]? = none) ∧
    (g.condense? = none → ∀ (b : Bundle) (f : Nat), b.graphs[f]? = some g →
      b.condense.bundle.graphs[f]? = some g) ∧
    (∀ (g1 g2 : Graph) (middle : Int16), g1.Rewrite middle g2 →
      g2.steps.count .neutral = g1.steps.count .neutral + 1 ∧
        ∀ step ∈ g2.steps, ¬ step.Mentions (.temp middle)) ∧
    ∀ (g' : Graph) (count : Nat), g.condense? = some (g', count) →
      g.InPlace g' ∧ ∃ middles, middles.length = count ∧ g.Rewrites middles g' ∧ middles.Nodup ∧
        g'.steps.count .neutral = g.steps.count .neutral + count ∧
        ∀ t ∈ middles, ∀ step ∈ g'.steps, ¬ step.Mentions (.temp t) := by
  refine ⟨?_, fun refused b f found => ?_, fun _ _ _ rewrite => rewrite.forwards,
    fun g' count condensed => ?_⟩
  · rw [← isCondensable_eq_false_iff]
    cases condensable : g.isCondensable with
    | false => simp [condense?, condensable]
    | true =>
        obtain ⟨g', n, condensed⟩ := exists_condense? condensable
        simp [condensed]
  · rw [Bundle.condense, Array.map_map, Array.getElem?_map, found]
    simp [refused]
  · obtain ⟨⟨middles, rewrites, rfl⟩, -⟩ := passed_condense? condensed
    obtain ⟨inPlace, neutrals, distinct, lacks⟩ := rewrites.spec
    exact ⟨inPlace, middles, rfl, rewrites, distinct, neutrals, lacks⟩

/-- Condensing once is enough. -/
theorem condensing_again {g g' : Graph} {count : Nat} (temps : g.WritesTemps)
    (condensed : g.condense? = some (g', count)) : g'.condense? = some (g', 0) := by
  obtain ⟨⟨middles, rewrites, -⟩, settled⟩ := passed_condense? condensed
  have inPlace := rewrites.spec.1
  have condensable : g'.isCondensable = true := by
    rw [inPlace.isCondensable]
    exact (condense?_eq_some_iff.1 condensed).1
  obtain ⟨last, n, again⟩ := exists_condense? condensable
  obtain ⟨-, t, rfl, run⟩ := condense?_eq_some_iff.1 again
  have stays : (last, t) = (g', .ofGraph g') :=
    foldlM_condenseBlock_induction (P := fun _ state => state = (g', .ofGraph g')) rfl
      (fun done id next next' mem same condenses => by
        subst same
        rw [Array.mem_toList_iff, inPlace.reachable] at mem
        exact condenseBlock_of_settled (Tally.exact_ofGraph g') (settled temps id mem) condenses)
      run
  cases stays
  rw [again, Tally.bypassed_ofGraph]

/-! ### A graph that goes round -/

namespace Round

/-- A negated constant comes to `t3` through three copies. The block leads back to itself, and
nothing leads to the second one. -/
def graph : Graph :=
  ⟨#[⟨#[.unary (.temp 0) .neg (.constant 0), .copy (.temp 1) (.temp 0),
        .copy (.temp 2) (.temp 1), .actOn .ret (.temp 2)], some 0, none⟩,
     ⟨#[.copy (.temp 3) (.constant 1), .copy (.temp 4) (.temp 3)], some 0, none⟩], 0⟩

def condensed : Graph :=
  ⟨#[⟨#[.unary (.temp 2) .neg (.constant 0), .neutral, .neutral, .actOn .ret (.temp 2)],
        some 0, none⟩,
     ⟨#[.copy (.temp 3) (.constant 1), .copy (.temp 4) (.temp 3)], some 0, none⟩], 0⟩

theorem condense?_eq : graph.condense? = some (condensed, 2) := by cbv

end Round

theorem condensing_of_round :
    Round.graph.condense? = some (Round.condensed, 2) ∧ Round.graph.InPlace Round.condensed :=
  ⟨Round.condense?_eq, ((condensing_in_place Round.graph).2.2.2 _ _ Round.condense?_eq).1⟩

theorem condensing_round_again :
    Round.graph.WritesTemps ∧ Round.graph.condense? = some (Round.condensed, 2) ∧
      Round.condensed.condense? = some (Round.condensed, 0) := by
  have temps : Round.graph.WritesTemps := by decide
  exact ⟨temps, Round.condense?_eq, condensing_again temps Round.condense?_eq⟩

end Graph

end RegisterCode
