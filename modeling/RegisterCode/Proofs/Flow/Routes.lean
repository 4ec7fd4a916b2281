import RegisterCode.Proofs.Flow.Outline

/-!
Where the jumps of a function stand and land, told by blocks: a conditional jump ends the
block that its condition is decided in and lands where the failing edge leads, and a jump
over an alternative lands where the only edge of its block leads.
-/

namespace RegisterCode

namespace Graph

/-- The number of the first step of a block. -/
def offset (g : Graph) (id : Nat) : Nat := (g.rows.take id).flatten.length

/-- The step stands in the block. -/
def Holds (g : Graph) (id k : Nat) : Prop := g.offset id ≤ k ∧ k < g.offset (id + 1)

variable {g : Graph} {id id' k : Nat} {row : List Step}

theorem offset_succ (h : g.rows[id]? = some row) :
    g.offset (id + 1) = g.offset id + row.length := by
  rw [offset, List.take_add_one, h, List.flatten_append, List.length_append]
  simp [offset]

theorem offset_mono (g : Graph) (h : id ≤ id') : g.offset id ≤ g.offset id' := by
  obtain ⟨rest, split⟩ := List.take_prefix_take_left (l := g.rows) h
  rw [offset, offset, ← split, List.flatten_append, List.length_append]
  exact Nat.le_add_right _ _

theorem length_rows (g : Graph) : g.rows.length = g.blocks.size := by
  rw [rows, List.length_map, Array.length_toList]

theorem offset_of_le (h : g.blocks.size ≤ id) : g.offset id = g.steps.length := by
  rw [offset, List.take_of_length_le (by rwa [length_rows]), steps_eq_flatten]

theorem offset_le (g : Graph) (id : Nat) : g.offset id ≤ g.steps.length := by
  rcases Nat.le_total id g.blocks.size with le | le
  · exact Nat.le_trans (g.offset_mono le) (Nat.le_of_eq (offset_of_le (Nat.le_refl _)))
  · exact Nat.le_of_eq (offset_of_le le)

/-- A step stands in one block only. -/
theorem Holds.unique (h : g.Holds id k) (h' : g.Holds id' k) : id = id' := by
  rcases Nat.lt_trichotomy id id' with lt | same | lt
  · have le := Nat.le_trans (g.offset_mono lt) h'.1
    exact absurd h.2 (Nat.not_lt.2 le)
  · exact same
  · have le := Nat.le_trans (g.offset_mono lt) h.1
    exact absurd h'.2 (Nat.not_lt.2 le)

theorem steps_offset (h : g.rows[id]? = some row) {j : Nat} (lt : j < row.length) :
    g.steps[g.offset id + j]? = row[j]? := by
  rw [steps_eq_flatten]
  exact getElem?_flatten_of_row h lt

theorem holds_offset (h : g.rows[id]? = some row) {j : Nat} (lt : j < row.length) :
    g.Holds id (g.offset id + j) :=
  ⟨Nat.le_add_right _ _, by rw [offset_succ h]; exact Nat.add_lt_add_left lt _⟩

/-- A step that stands in a block is one of its row. -/
theorem Holds.exists_row (h : g.Holds id k) :
    ∃ row j, g.rows[id]? = some row ∧ j < row.length ∧ k = g.offset id + j := by
  obtain ⟨le, lt⟩ := h
  cases found : g.rows[id]? with
  | none =>
      have beyond := List.getElem?_eq_none_iff.1 found
      rw [length_rows] at beyond
      rw [offset_of_le (Nat.le_succ_of_le beyond), ← offset_of_le beyond] at lt
      omega
  | some row =>
      rw [offset_succ found] at lt
      exact ⟨row, k - g.offset id, rfl, by omega, by omega⟩

/-- Every step stands in a block. -/
theorem exists_holds (lt : k < g.steps.length) : ∃ id < g.blocks.size, g.Holds id k := by
  suffices each : ∀ n, k < g.offset n → ∃ id < n, g.Holds id k by
    exact each g.blocks.size (by rwa [offset_of_le (Nat.le_refl _)])
  intro n
  induction n with
  | zero => exact fun lt => absurd lt (Nat.not_lt_zero k)
  | succ n ih =>
      intro lt
      by_cases before : k < g.offset n
      · obtain ⟨id, small, holds⟩ := ih before
        exact ⟨id, Nat.lt_succ_of_lt small, holds⟩
      · exact ⟨n, Nat.lt_succ_self n, Nat.not_lt.1 before, lt⟩

end Graph

/-! ### Routes -/

/-- A jump lands on the first step of a block. -/
def Graph.LandsOn (g : Graph) (k id : Nat) : Prop :=
  g.listing.landing k = some (g.offset id) ∧ g.Holds id (g.offset id)

/-- The jumps among some of the steps: each stands in the block that it ends, and lands
where the conditional or the jump over an alternative says. -/
structure Routed (g : Graph) (start stop : Nat) (forks : List Fork) (hops : List (Nat × Nat)) :
    Prop where
  branch : ∀ k, start ≤ k → k < stop → g.listing.markers[k]? = some .jumpElse →
    ∃ fork ∈ forks, g.Holds fork.condition k ∧ g.LandsOn k fork.otherwise
  jump : ∀ k, start ≤ k → k < stop → g.listing.markers[k]? = some .jump →
    ∃ hop ∈ hops, g.Holds hop.1 k ∧ g.LandsOn k hop.2
  forked : ∀ fork ∈ forks, ∃ k, g.listing.markers[k]? = some .jumpElse ∧
    g.Holds fork.condition k

namespace Routed

variable {g g' : Graph} {start middle stop : Nat} {forks forks' : List Fork}
  {hops hops' : List (Nat × Nat)}

theorem append (h : Routed g start middle forks hops) (h' : Routed g middle stop forks' hops') :
    Routed g start stop (forks ++ forks') (hops ++ hops') where
  branch k le lt found := by
    rcases Nat.lt_or_ge k middle with before | behind
    · obtain ⟨fork, mem, known⟩ := h.branch k le before found
      exact ⟨fork, List.mem_append_left _ mem, known⟩
    · obtain ⟨fork, mem, known⟩ := h'.branch k behind lt found
      exact ⟨fork, List.mem_append_right _ mem, known⟩
  jump k le lt found := by
    rcases Nat.lt_or_ge k middle with before | behind
    · obtain ⟨hop, mem, known⟩ := h.jump k le before found
      exact ⟨hop, List.mem_append_left _ mem, known⟩
    · obtain ⟨hop, mem, known⟩ := h'.jump k behind lt found
      exact ⟨hop, List.mem_append_right _ mem, known⟩
  forked fork mem := by
    rcases List.mem_append.1 mem with mem | mem
    · exact h.forked fork mem
    · exact h'.forked fork mem

/-- Steps among which there is no jump. -/
theorem quiet (other : ∀ (k : Nat) (op : Op), start ≤ k → k < stop →
    g.listing.markers[k]? = some op → ¬ op.IsJump) : Routed g start stop [] [] where
  branch k le lt found := absurd (.inr rfl) (other k _ le lt found)
  jump k le lt found := absurd (.inl rfl) (other k _ le lt found)
  forked _ mem := by simp at mem

/-- Steps of which only the first is a conditional jump. -/
theorem single_branch (fork : Fork) (found : g.listing.markers[start]? = some .jumpElse)
    (holds : g.Holds fork.condition start) (lands : g.LandsOn start fork.otherwise)
    (rest : Routed g (start + 1) stop [] []) : Routed g start stop [fork] [] where
  branch k le lt found' := by
    rcases Nat.eq_or_lt_of_le le with rfl | later
    · exact ⟨fork, List.mem_cons_self, holds, lands⟩
    · obtain ⟨_, mem, -⟩ := rest.branch k later lt found'
      simp at mem
  jump k le lt found' := by
    rcases Nat.eq_or_lt_of_le le with rfl | later
    · rw [found] at found'
      cases found'
    · exact rest.jump k later lt found'
  forked fork' mem := ⟨start, found, List.mem_singleton.1 mem ▸ holds⟩

/-- Steps of which only the first is a jump. -/
theorem single_jump (hop : Nat × Nat) (found : g.listing.markers[start]? = some .jump)
    (holds : g.Holds hop.1 start) (lands : g.LandsOn start hop.2)
    (rest : Routed g (start + 1) stop [] []) : Routed g start stop [] [hop] where
  branch k le lt found' := by
    rcases Nat.eq_or_lt_of_le le with rfl | later
    · rw [found] at found'
      cases found'
    · exact rest.branch k later lt found'
  jump k le lt found' := by
    rcases Nat.eq_or_lt_of_le le with rfl | later
    · exact ⟨hop, List.mem_cons_self, holds, lands⟩
    · obtain ⟨_, mem, -⟩ := rest.jump k later lt found'
      simp at mem
  forked _ mem := by simp at mem

/-- Routes are told from the markers and from how many steps each block has. -/
theorem congr (h : Routed g start stop forks hops)
    (lengths : g'.rows.map List.length = g.rows.map List.length)
    (markers : g'.listing.markers = g.listing.markers) : Routed g' start stop forks hops := by
  have offset : ∀ id, g'.offset id = g.offset id := by
    intro id
    rw [Graph.offset, Graph.offset, List.length_flatten, List.length_flatten, List.map_take,
      List.map_take, lengths]
  have landing : ∀ k, g'.listing.landing k = g.listing.landing k := by
    intro k
    rw [Listing.landing, Listing.landing, markers]
  obtain ⟨branch, jump, forked⟩ := h
  refine ⟨?_, ?_, ?_⟩
  · simpa only [markers, landing, Graph.LandsOn, Graph.Holds, offset] using branch
  · simpa only [markers, landing, Graph.LandsOn, Graph.Holds, offset] using jump
  · simpa only [markers, Graph.Holds, offset] using forked

end Routed

/-! ### The routes of statements -/

namespace Draft

variable {c : Context} {d d' z : Draft} {procedures : Nat} {a : Address}

theorem Extends.offset_eq (h : Extends d z) {id : Nat} (lt : id < d.graph.blocks.size) :
    z.graph.offset id = d.graph.offset id := by
  obtain ⟨rest, all⟩ := h.grown
  have le : id ≤ d.graph.rows.dropLast.length := by
    rw [List.length_dropLast, Graph.length_rows]
    omega
  have le' : id ≤ z.graph.rows.dropLast.length := by
    rw [← all, List.length_append]
    omega
  have first (rows : List (List Step)) (le : id ≤ rows.dropLast.length) :
      rows.take id = rows.dropLast.take id := by
    rw [List.dropLast_eq_take, List.take_take, Nat.min_eq_left]
    rwa [List.length_dropLast] at le
  rw [Graph.offset, Graph.offset, first _ le, first _ le', ← all, List.take_append_of_le_length le]

/-- A block begins behind the steps there were when it was opened. -/
theorem Extends.offset_opened (h : Extends d.opened z) :
    z.graph.offset d.graph.blocks.size = d.graph.steps.length := by
  rw [h.offset_eq (by rw [size_opened]; exact Nat.lt_succ_self _), Graph.offset, graph_opened,
    Graph.rows_addBlock, List.take_left' d.graph.length_rows, Graph.steps_eq_flatten]

theorem Extends.opened_of_landed {marker : Op} (h : Extends (d.landed marker) z) :
    Extends d.opened z := by
  have one : 0 < d.opened.graph.blocks.size := by
    rw [size_opened]
    exact Nat.succ_pos _
  exact ((extends_pushed one _).trans (extends_pushed (by rwa [size_pushed]) _)).trans h

/-- A block that is landed on begins behind the steps there were, and is not empty. -/
theorem Extends.offset_landed {marker : Op} (h : Extends (d.landed marker) z) :
    z.graph.offset d.graph.blocks.size = d.graph.steps.length ∧
      z.graph.Holds d.graph.blocks.size (z.graph.offset d.graph.blocks.size) := by
  refine ⟨h.opened_of_landed.offset_opened, ?_⟩
  have landed : (d.landed marker).graph.rows = d.graph.rows ++ [[.act .nop, .act marker]] := by
    have opened : d.opened.graph.rows = d.graph.rows ++ [[]] := Graph.rows_addBlock
    rw [Draft.landed, rows_pushed (rows_pushed opened)]
    rfl
  obtain ⟨row, found, begins⟩ := h.kept d.graph.blocks.size [.act .nop, .act marker] (by
    rw [landed, ← Graph.length_rows, List.getElem?_concat_length])
  exact Graph.holds_offset found (Nat.lt_of_lt_of_le (Nat.succ_pos 1) begins.length_le)

/-- The newest block begins among the steps there are. -/
theorem Extends.offset_le (h : Extends d z) (opened : 0 < d.graph.blocks.size) :
    z.graph.offset (d.graph.blocks.size - 1) ≤ d.graph.steps.length := by
  rw [h.offset_eq (by omega)]
  exact d.graph.offset_le _

/-- Steps without a jump that the last draft has kept. -/
theorem routed_quiet {before added : List Step} (begins : before ++ added <+: z.graph.steps)
    (other : ∀ step ∈ added, ¬ step.marker.IsJump) :
    Routed z.graph before.length (before ++ added).length [] [] := by
  refine .quiet fun k op le lt found => ?_
  rw [Listing.markers, List.getElem?_map] at found
  obtain ⟨step, here, rfl⟩ := Option.map_eq_some_iff.1 found
  have here : z.graph.steps[k]? = some step := here
  obtain ⟨rest, all⟩ := begins
  rw [← all, List.getElem?_append_left lt, List.getElem?_append_right le] at here
  exact other step (List.mem_of_getElem? here)

theorem marker_of_begins {before added : List Step} {step : Step}
    (begins : before ++ step :: added <+: z.graph.steps) :
    z.graph.listing.markers[before.length]? = some step.marker := by
  obtain ⟨rest, all⟩ := begins
  rw [Listing.markers, List.getElem?_map]
  show z.graph.steps[before.length]?.map _ = _
  rw [← all, List.append_assoc, List.getElem?_append_right (Nat.le_refl _), Nat.sub_self]
  rfl

/-- The steps behind the first of several, which are no jumps. -/
theorem routed_behind {before added : List Step} {step : Step}
    (begins : before ++ step :: added <+: z.graph.steps)
    (other : ∀ step ∈ added, ¬ step.marker.IsJump) :
    Routed z.graph (before.length + 1) (before ++ step :: added).length [] [] := by
  rw [List.append_cons] at begins ⊢
  have rest := routed_quiet begins other
  rwa [List.length_append, List.length_singleton] at rest

/-- The condition of a branch ends its block, and the body begins another one. -/
theorem holds_entered (h : d.Sane procedures) (usable : d.Usable a)
    (within : Extends (d.branched a).opened z) :
    z.graph.Holds (d.graph.blocks.size - 1) d.graph.steps.length := by
  obtain ⟨-, -, steps⟩ := h.branched usable
  have behind := within.offset_opened
  rw [size_branched, steps, List.length_append] at behind
  refine ⟨(((extends_branched h.opened a).trans (extends_opened _)).trans within).offset_le
    h.opened, ?_⟩
  rw [Nat.sub_add_cancel h.opened, behind]
  exact Nat.lt_add_of_pos_right (Nat.succ_pos 1)

/-- The routes of a branch without an alternative, once those of its body are known. -/
theorem routed_ifThen {d1 d2 : Draft} {forks : List Fork} {hops : List (Nat × Nat)}
    {last : Patching} (h : d1.Sane procedures) (usable : d1.Usable a)
    (body : Executes procedures (d1.branched a).opened d2)
    (entered : Extends (d1.branched a).opened d2)
    (within : Extends (d2.joined d1.graph.blocks.size) z)
    (played : Patching.start.play z.graph.listing.markers = some last)
    (routed : Routed z.graph (d1.branched a).opened.graph.steps.length d2.graph.steps.length
      forks hops) :
    Routed z.graph d1.graph.steps.length (d2.joined d1.graph.blocks.size).graph.steps.length
      (⟨d1.graph.blocks.size - 1, d1.graph.blocks.size, d2.graph.blocks.size⟩ :: forks) hops := by
  obtain ⟨-, -, steps, -⟩ := h.entered usable
  obtain ⟨-, -, steps'⟩ := body.sane.joined d1.graph.blocks.size
  obtain ⟨added, steps2, balanced⟩ := body.balanced
  have joined := (extends_joined d2 d1.graph.blocks.size).trans within
  have begins := within.steps
  rw [steps', steps2, steps] at begins
  have begins' := joined.steps
  rw [steps2, steps, List.append_assoc] at begins'
  have lands := Listing.landing_ifThen played balanced begins
  have landed : Extends (d2.landed .patchJumpElse) (d2.joined d1.graph.blocks.size) :=
    .of_same rfl
  obtain ⟨behind, begun⟩ := (landed.trans within).offset_landed
  have length2 : d2.graph.steps.length = d1.graph.steps.length + 2 + added.length := by
    rw [steps2, steps]
    simp only [List.length_append, List.length_cons, List.length_nil]
  have quiet : Routed z.graph d2.graph.steps.length
      (d2.joined d1.graph.blocks.size).graph.steps.length [] [] := by
    rw [steps']
    refine routed_quiet (steps' ▸ within.steps) fun step mem => ?_
    rcases List.mem_pair.1 mem with rfl | rfl <;> decide
  have forking : d1.graph.steps ++ Step.actOnTwo .jumpElse a (.immediate 0) :: [.act .savePatch]
      <+: z.graph.steps := by
    rw [← steps]
    exact (entered.trans joined).steps
  have branching := Routed.single_branch
    ⟨d1.graph.blocks.size - 1, d1.graph.blocks.size, d2.graph.blocks.size⟩
    (marker_of_begins begins') (holds_entered h usable (entered.trans joined))
    ⟨by rw [lands, behind, length2], begun⟩ (routed_behind forking (by decide))
  rw [← steps] at branching
  have all := (branching.append routed).append quiet
  rwa [List.append_nil, List.append_nil] at all

/-- The jump over the alternative ends its block, and the alternative begins another one. -/
theorem holds_turned {first : Nat} (h : d.Sane procedures)
    (within : Extends (d.alternated first) z) :
    z.graph.Holds (d.graph.blocks.size - 1) d.graph.steps.length ∧
      z.graph.offset d.graph.blocks.size = d.graph.steps.length + 3 ∧
      z.graph.Holds d.graph.blocks.size (z.graph.offset d.graph.blocks.size) := by
  have saved : ((d.pushed (.actOn .jump (.immediate 0))).pushed (.act .savePatch)).graph.steps =
      d.graph.steps ++ [.actOn .jump (.immediate 0), .act .savePatch] := by
    show (Graph.pushNewest _ _).steps = _
    rw [Graph.steps_pushNewest (by rw [size_pushed]; exact h.opened)]
    show (Graph.pushNewest _ _).steps ++ _ = _
    rw [Graph.steps_pushNewest h.opened, List.append_assoc]
    rfl
  have turned : Extends ((((d.pushed (.actOn .jump (.immediate 0))).pushed (.act .savePatch)).pushed
      (.act .shufflePatch)).landed .patchJumpElse) (d.alternated first) := .of_same rfl
  obtain ⟨behind, begun⟩ := (turned.trans within).offset_landed
  rw [size_pushed, size_pushed, size_pushed] at behind begun
  have three : (((d.pushed (.actOn .jump (.immediate 0))).pushed (.act .savePatch)).pushed
      (.act .shufflePatch)).graph.steps.length = d.graph.steps.length + 3 := by
    show (Graph.pushNewest _ _).steps.length = _
    rw [Graph.steps_pushNewest (by rw [size_pushed, size_pushed]; exact h.opened), saved]
    simp only [List.length_append, List.length_cons, List.length_nil]
  rw [three] at behind
  refine ⟨⟨((extends_alternated h.opened first).trans within).offset_le h.opened, ?_⟩, behind,
    begun⟩
  rw [Nat.sub_add_cancel h.opened, behind]
  exact Nat.lt_add_of_pos_right (Nat.succ_pos 2)

/-- The routes of two branches, once those of their bodies are known. -/
theorem routed_ifElse {d1 d2 d3 : Draft} {forks forks' : List Fork} {hops hops' : List (Nat × Nat)}
    {last : Patching} (h : d1.Sane procedures) (usable : d1.Usable a)
    (body : Executes procedures (d1.branched a).opened d2)
    (entered : Extends (d1.branched a).opened d2)
    (body' : Executes procedures (d2.alternated d1.graph.blocks.size) d3)
    (entered' : Extends (d2.alternated d1.graph.blocks.size) d3)
    (within : Extends (d3.rejoined d1.graph.blocks.size d2.graph.blocks.size) z)
    (played : Patching.start.play z.graph.listing.markers = some last)
    (routed : Routed z.graph (d1.branched a).opened.graph.steps.length d2.graph.steps.length
      forks hops)
    (routed' : Routed z.graph (d2.alternated d1.graph.blocks.size).graph.steps.length
      d3.graph.steps.length forks' hops') :
    Routed z.graph d1.graph.steps.length
      (d3.rejoined d1.graph.blocks.size d2.graph.blocks.size).graph.steps.length
      (⟨d1.graph.blocks.size - 1, d1.graph.blocks.size, d2.graph.blocks.size⟩ :: (forks ++ forks'))
      (hops ++ (d2.graph.blocks.size - 1, d3.graph.blocks.size) :: hops') := by
  obtain ⟨-, -, steps, -⟩ := h.entered usable
  obtain ⟨-, -, steps'⟩ := body.sane.alternated d1.graph.blocks.size
  obtain ⟨-, -, steps''⟩ := body'.sane.rejoined d1.graph.blocks.size d2.graph.blocks.size
  obtain ⟨added, steps2, balanced⟩ := body.balanced
  obtain ⟨added', steps3, balanced'⟩ := body'.balanced
  have within3 := (extends_rejoined d3 d1.graph.blocks.size d2.graph.blocks.size).trans within
  have within2' := entered'.trans within3
  have within2 := (extends_alternated body.sane.opened d1.graph.blocks.size).trans within2'
  have within1' := entered.trans within2
  have begins := within.steps
  rw [steps'', steps3, steps', steps2, steps] at begins
  obtain ⟨lands, lands'⟩ := Listing.landing_ifElse played balanced balanced' begins
  obtain ⟨holds, behind, begun⟩ := holds_turned body.sane within2'
  have length2 : d2.graph.steps.length = d1.graph.steps.length + 2 + added.length := by
    rw [steps2, steps]
    simp only [List.length_append, List.length_cons, List.length_nil]
  have length3 : d3.graph.steps.length =
      d1.graph.steps.length + 2 + added.length + 5 + added'.length := by
    rw [steps3, steps', List.length_append, List.length_append, length2]
    rfl
  have landed : Extends (d3.landed .patchJump)
      (d3.rejoined d1.graph.blocks.size d2.graph.blocks.size) := .of_same rfl
  obtain ⟨behind', begun'⟩ := (landed.trans within).offset_landed
  have begins1 := within1'.steps
  rw [steps] at begins1
  have branching := Routed.single_branch
    ⟨d1.graph.blocks.size - 1, d1.graph.blocks.size, d2.graph.blocks.size⟩
    (marker_of_begins begins1) (holds_entered h usable within1')
    ⟨by rw [lands, behind, length2], begun⟩
    (routed_behind begins1 (by decide))
  have begins2 := within2'.steps
  rw [steps'] at begins2
  have jumping := Routed.single_jump (d2.graph.blocks.size - 1, d3.graph.blocks.size)
    (marker_of_begins begins2) holds ⟨by rw [length2, lands', behind', length3], begun'⟩
    (routed_behind begins2 (by decide))
  have begins3 := within.steps
  rw [steps''] at begins3
  have quiet := routed_quiet begins3 (by decide)
  rw [← steps] at branching
  rw [← steps'] at jumping
  rw [← steps''] at quiet
  have all := (((branching.append routed).append jumping).append routed').append quiet
  simpa using all

theorem not_isJump_condensed : ¬ Op.IsJump .condensed := by decide

theorem routed_beside (h : d.Beside d') (within : Extends d' z) :
    Routed z.graph d.graph.steps.length d'.graph.steps.length [] [] := by
  obtain ⟨added, steps, quiet⟩ := h.quiet
  have begins := within.steps
  rw [steps] at begins ⊢
  refine routed_quiet begins fun step mem => ?_
  rw [quiet step mem]
  exact not_isJump_condensed

mutual

/-- The jumps of a statement land where its conditionals say. -/
theorem ofStmt_routed (below : c.procedures.Below procedures) (s : Stmt) {d d' : Draft}
    (run : ofStmt c s d = .ok () d') (h : d.Sane procedures) {z : Draft} {last : Patching}
    (within : Extends d' z) (played : Patching.start.play z.graph.listing.markers = some last) :
    Routed z.graph d.graph.steps.length d'.graph.steps.length
      (s.forks (d.graph.blocks.size - 1)) (s.hops (d.graph.blocks.size - 1)) := by
  cases s with
  | expr e =>
      rw [ofStmt] at run
      obtain ⟨_, d1, evaluated, run⟩ := bind_eq_ok_iff.1 run
      cases run
      exact routed_beside (ofExpr_gives below e h evaluated).beside within
  | define name init =>
      rw [ofStmt] at run
      obtain ⟨source, d1, evaluated, limit, free, rfl⟩ := ofDefinition_ok run
      have gives := ofExpr_gives below init h evaluated
      have steps : (d1.defined (name.lexeme c.source) source).graph.steps = _ :=
        Graph.steps_pushNewest gives.sane.opened
      have begins := within.steps
      rw [steps] at begins ⊢
      have defines : Extends (d1.pushed (.copy (.temp (Int16.ofNat d1.temps)) source))
          (d1.defined (name.lexeme c.source) source) := .of_same rfl
      have within1 := (extends_pushed gives.sane.opened _).trans (defines.trans within)
      exact (routed_beside gives.beside within1).append (routed_quiet begins fun step mem => by
        obtain rfl := List.mem_singleton.1 mem
        exact not_isJump_condensed)
  | ifThen cond thenBody =>
      obtain ⟨source, d1, d2, evaluated, body, rfl⟩ := ofStmt_ifThen run
      have gives := ofExpr_gives below cond h evaluated
      obtain ⟨entered, -, -, size⟩ := gives.sane.entered gives.usable
      have executes := ofStmt_executes below thenBody entered body
      have outlined := ofStmt_outlined thenBody body entered.opened
      have within2 := (extends_joined d2 d1.graph.blocks.size).trans within
      have routed := ofStmt_routed below thenBody body entered within2 played
      have branch := routed_ifThen gives.sane gives.usable executes outlined.toExtends within played
        routed
      have within1 := (((extends_branched gives.sane.opened source).trans
        (extends_opened _)).trans outlined.toExtends).trans within2
      have all := (routed_beside gives.beside within1).append branch
      have size' := outlined.size
      have opened := h.opened
      rw [size, gives.beside.blocks] at size'
      rw [size, gives.beside.blocks, size', Nat.add_sub_cancel] at all
      rw [Stmt.forks, Stmt.hops, show d.graph.blocks.size - 1 + 1 = d.graph.blocks.size by omega,
        show d.graph.blocks.size - 1 + thenBody.opens + 2 =
          d.graph.blocks.size + 1 + thenBody.opens by omega]
      exact all
  | ifElse cond thenBody elseBody =>
      obtain ⟨source, d1, d2, d3, evaluated, body, body', rfl⟩ := ofStmt_ifElse run
      have gives := ofExpr_gives below cond h evaluated
      obtain ⟨entered, -, -, size⟩ := gives.sane.entered gives.usable
      have executes := ofStmt_executes below thenBody entered body
      have outlined := ofStmt_outlined thenBody body entered.opened
      have entered' := (executes.sane.alternated d1.graph.blocks.size).1
      have executes' := ofStmt_executes below elseBody entered' body'
      have outlined' := ofStmt_outlined elseBody body' entered'.opened
      have within3 :=
        (extends_rejoined d3 d1.graph.blocks.size d2.graph.blocks.size).trans within
      have within2 := (extends_alternated executes.sane.opened d1.graph.blocks.size).trans
        (outlined'.toExtends.trans within3)
      have routed := ofStmt_routed below thenBody body entered within2 played
      have routed' := ofStmt_routed below elseBody body' entered' within3 played
      have branch := routed_ifElse gives.sane gives.usable executes outlined.toExtends executes'
        outlined'.toExtends within played routed routed'
      have within1 := (((extends_branched gives.sane.opened source).trans
        (extends_opened _)).trans outlined.toExtends).trans within2
      have all := (routed_beside gives.beside within1).append branch
      have size2 := outlined.size
      have size3 := outlined'.size
      have opened := h.opened
      rw [size, gives.beside.blocks] at size2
      rw [size_alternated, size2] at size3
      rw [size, size_alternated, gives.beside.blocks, size2, size3, Nat.add_sub_cancel,
        Nat.add_sub_cancel] at all
      rw [Stmt.forks, Stmt.hops, show d.graph.blocks.size - 1 + 1 = d.graph.blocks.size by omega,
        show d.graph.blocks.size - 1 + thenBody.opens + 2 =
          d.graph.blocks.size + 1 + thenBody.opens by omega,
        show d.graph.blocks.size - 1 + thenBody.opens + 1 =
          d.graph.blocks.size + 1 + thenBody.opens - 1 by omega,
        show d.graph.blocks.size - 1 + thenBody.opens + elseBody.opens + 3 =
          d.graph.blocks.size + 1 + thenBody.opens + 1 + elseBody.opens by omega]
      exact all
  | ret e =>
      obtain ⟨source, d1, evaluated, rfl⟩ := ofStmt_ret run
      have gives := ofExpr_gives below e h evaluated
      have steps : (d1.pushed (.actOn .ret source)).graph.steps = _ :=
        Graph.steps_pushNewest gives.sane.opened
      have begins := within.steps
      rw [steps] at begins ⊢
      have within1 := (extends_pushed gives.sane.opened _).trans within
      exact (routed_beside gives.beside within1).append (routed_quiet begins fun step mem => by
        obtain rfl := List.mem_singleton.1 mem
        exact not_isJump_condensed)
  | block items =>
      rw [ofStmt] at run
      exact ofBlock_routed below items run h within played
  | function name params body =>
      rw [ofStmt] at run
      cases run
  | imports name =>
      rw [ofStmt] at run
      cases run
  | stub name params =>
      rw [ofStmt] at run
      cases run
termination_by sizeOf s

theorem ofBlock_routed (below : c.procedures.Below procedures) (items : List Stmt)
    {d d' : Draft} (run : ofBlock c items d = .ok () d') (h : d.Sane procedures) {z : Draft}
    {last : Patching} (within : Extends d' z)
    (played : Patching.start.play z.graph.listing.markers = some last) :
    Routed z.graph d.graph.steps.length d'.graph.steps.length
      (Stmt.forksAll items (d.graph.blocks.size - 1))
      (Stmt.hopsAll items (d.graph.blocks.size - 1)) := by
  cases items with
  | nil =>
      cases run
      exact .quiet fun k op le lt => absurd lt (Nat.not_lt.2 le)
  | cons s rest =>
      obtain ⟨d1, first, more⟩ := ofBlock_cons run
      have sane := (ofStmt_executes below s h first).sane
      have outlined := ofStmt_outlined s first h.opened
      have within1 := (ofBlock_outlined rest more sane.opened).toExtends.trans within
      have routed := ofStmt_routed below s first h within1 played
      have routed' := ofBlock_routed below rest more sane within played
      have middle : d1.graph.blocks.size - 1 = d.graph.blocks.size - 1 + s.opens := by
        rw [outlined.size, Nat.sub_add_comm h.opened]
      rw [middle] at routed'
      exact routed.append routed'
termination_by sizeOf items

end

end Draft

/-! ### Graphs drawn by compiling -/

/-- The graph of a function, with the blocks, edges and jumps that its body asks for. -/
structure Graph.Charted (g : Graph) (body : Stmt) : Prop where
  size : g.blocks.size = body.opens + 1
  strung : ∃ edges, Planned edges 0 body.opens (body.forks 0) (body.hops 0) ∧ g.Strung edges
  routed : Routed g 0 g.steps.length (body.forks 0) (body.hops 0)

namespace Graph.Charted

variable {g g' : Graph} {body : Stmt} {id k : Nat} {b : Block}

/-- The edges of a conditional lead to its body and to what comes otherwise. -/
theorem forked (h : g.Charted body) {fork : Fork} (mem : fork ∈ body.forks 0) :
    ∃ b, g.blocks[fork.condition]? = some b ∧ b.truthy = some fork.body ∧
      b.falsy = some fork.otherwise := by
  obtain ⟨edges, planned, strung⟩ := h.strung
  have inside := planned.fork_inside mem
  have here := Array.getElem?_eq_getElem (show fork.condition < g.blocks.size by
    rw [h.size]
    omega)
  obtain ⟨truthy, falsy⟩ := strung _ _ here
  rw [planned.fork fork mem] at truthy falsy
  exact ⟨_, here, truthy, falsy⟩

theorem falsy_iff (h : g.Charted body) (found : g.blocks[id]? = some b) :
    b.falsy.isSome ↔ ∃ fork ∈ body.forks 0, fork.condition = id := by
  constructor
  · intro some
    obtain ⟨edges, planned, strung⟩ := h.strung
    by_contra none
    have le := planned.plain id fun fork mem same => none ⟨fork, mem, same⟩
    rw [(strung id b found).2, List.getElem?_eq_none le] at some
    cases some
  · rintro ⟨fork, mem, rfl⟩
    obtain ⟨b', found', -, falsy⟩ := h.forked mem
    rw [found] at found'
    cases found'
    rw [falsy]
    rfl

/-- A conditional jump lands where the failing edge of its block leads. -/
theorem landing_jumpElse (h : g.Charted body) (found : g.blocks[id]? = some b)
    (holds : g.Holds id k) (jump : g.listing.markers[k]? = some .jumpElse) :
    ∃ target, b.falsy = some target ∧ g.LandsOn k target := by
  have inside := (List.getElem?_eq_some_iff.1 jump).1
  rw [Listing.markers, List.length_map] at inside
  obtain ⟨fork, mem, holds', lands⟩ := h.routed.branch k (Nat.zero_le _) inside jump
  obtain rfl := holds.unique holds'
  obtain ⟨b', found', -, falsy⟩ := h.forked mem
  rw [found] at found'
  cases found'
  exact ⟨_, falsy, lands⟩

/-- A jump lands where the only edge of its block leads. -/
theorem landing_jump (h : g.Charted body) (found : g.blocks[id]? = some b) (holds : g.Holds id k)
    (jump : g.listing.markers[k]? = some .jump) :
    ∃ target, b.truthy = some target ∧ b.falsy = none ∧ g.LandsOn k target := by
  have inside := (List.getElem?_eq_some_iff.1 jump).1
  rw [Listing.markers, List.length_map] at inside
  obtain ⟨hop, mem, holds', lands⟩ := h.routed.jump k (Nat.zero_le _) inside jump
  obtain rfl := holds.unique holds'
  obtain ⟨edges, planned, strung⟩ := h.strung
  obtain ⟨truthy, falsy⟩ := strung _ _ found
  rw [planned.hop hop mem] at truthy falsy
  exact ⟨_, truthy, falsy, lands⟩

/-- Whether a graph is charted is told from its edges, its markers, and how many steps its
blocks have. -/
theorem congr (h : g.Charted body)
    (edges : g'.blocks.map (fun b => (b.truthy, b.falsy)) =
      g.blocks.map fun b => (b.truthy, b.falsy))
    (lengths : g'.rows.map List.length = g.rows.map List.length)
    (markers : g'.listing.markers = g.listing.markers) : g'.Charted body where
  size := by
    have size := congrArg Array.size edges
    rw [Array.size_map, Array.size_map] at size
    exact size.trans h.size
  strung := by
    obtain ⟨planned, plan, strung⟩ := h.strung
    refine ⟨planned, plan, fun id b found => ?_⟩
    have same := congrArg (·[id]?) edges
    simp only [Array.getElem?_map, found, Option.map_some] at same
    obtain ⟨b', found', eq⟩ := Option.map_eq_some_iff.1 same.symm
    rw [Prod.mk.injEq] at eq
    obtain ⟨truthy, falsy⟩ := strung id b' found'
    exact ⟨eq.1 ▸ truthy, eq.2 ▸ falsy⟩
  routed := by
    have length : g'.steps.length = g.steps.length := by
      have same := congrArg List.length markers
      rwa [Listing.markers, Listing.markers, List.length_map, List.length_map] at same
    rw [length]
    exact h.routed.congr lengths markers

end Graph.Charted

namespace Draft

variable {c : Context} {d d' : Draft} {procedures : Nat}

/-- The graph of a function that is accepted is as its body says. -/
theorem ofFunction_charted (below : c.procedures.Below procedures) {params : List Token}
    {body : Stmt} {u : Unit} (steady : d.Steady) (h : ofFunction c params body d = .ok u d') :
    d'.graph.Charted body := by
  obtain ⟨edges, planned, strung, size⟩ := ofFunction_strung h
  obtain ⟨d1, d2, entered, compiled, linking⟩ := ofFunction_ok h
  have sane : d1.Sane procedures := entered.sane steady
  have executes := ofStmt_executes below body sane compiled
  obtain ⟨-, -, -, rows, paramCount⟩ := forM_link_ok linking executes.sane.bare.wired
  have listing : d'.graph.listing = d2.graph.listing := by
    rw [Graph.listing, Graph.listing, Graph.steps_congr rows, paramCount]
  obtain ⟨added, steps, balanced⟩ := executes.balanced
  rw [entered.steps, List.nil_append] at steps
  obtain ⟨last, played, -⟩ := balanced.plays .start
  rw [← steps] at played
  have routed := ofStmt_routed below body compiled sane (Extends.of_same rfl) played
  have one : d1.graph.blocks.size = 1 := by
    rw [entered.graph]
    rfl
  rw [entered.steps, one] at routed
  refine ⟨size, ⟨edges, planned, strung⟩, ?_⟩
  rw [Graph.steps_congr rows]
  exact routed.congr (by rw [rows]) (by rw [listing])

end Draft

/-- Every function of a forest that is accepted has its graph. -/
theorem Graph.charted_of_ofForest {procedures : Registry} {sources : Array String}
    {forest : List SourceUnit} {b : Bundle}
    (h : Bundle.ofForest procedures sources forest = .ok b) :
    b.graphs.size = (declarations sources forest).length ∧
      ∀ (i : Nat) (f : Declaration) (g : Graph), (declarations sources forest)[i]? = some f →
        b.graphs[i]? = some g → g.Charted f.body := by
  have below : procedures.Below 65536 := fun _ id _ => id.toNat_lt
  obtain ⟨size, each⟩ := Draft.compiles_of_ofForest h
  refine ⟨size, fun i f g declared at_ => ?_⟩
  obtain ⟨d0, d1, steady, ⟨params, -, run⟩, rfl⟩ := each i f g declared at_
  exact Draft.ofFunction_charted (c := ⟨procedures, f.source⟩) below steady run

end RegisterCode
