import RegisterCode.Proofs.Flow.Sites

/-!
What condensing does to any graph: a number of rewrites in place, each of which forwards one
temporary (`Graph.Rewrites`). A rewrite changes two steps of one block. It leaves one more step
neutral, and the temporary is mentioned nowhere any more.
-/

namespace RegisterCode

namespace Graph

variable {g : Graph} {id origin position : Nat} {b : Block} {row : Array Step}

/-! ### Another row in a block -/

/-- The graph with other steps in one of its blocks. -/
def withRow (g : Graph) (id : Nat) (b : Block) (row : Array Step) : Graph :=
  { g with blocks := g.blocks.setIfInBounds id { b with steps := row } }

theorem getElem?_withRow (found : g.blocks[id]? = some b) (row : Array Step) :
    (g.withRow id b row).blocks[id]? = some { b with steps := row } :=
  Array.getElem?_setIfInBounds_self_of_lt (Array.getElem?_eq_some_iff.1 found).1

theorem getElem?_withRow_ne {id' : Nat} (other : id' ≠ id) :
    (g.withRow id b row).blocks[id']? = g.blocks[id']? :=
  Array.getElem?_setIfInBounds_ne other.symm

theorem withRow_self (found : g.blocks[id]? = some b) : g.withRow id b b.steps = g := by
  obtain ⟨lt, rfl⟩ := Array.getElem?_eq_some_iff.1 found
  rw [withRow, Array.setIfInBounds, dif_pos lt, Array.set_getElem_self]

theorem withRow_withRow (g : Graph) (id : Nat) (b : Block) (row row' : Array Step) :
    (g.withRow id b row).withRow id { b with steps := row } row' = g.withRow id b row' := by
  rw [withRow, withRow, withRow, Array.setIfInBounds_setIfInBounds]

/-- What is counted in the graph after two steps of a block were replaced. -/
theorem count_withRow {β : Type} [DecidableEq β] {f : Step → List β} {x : β} {w c other copy : Step}
    (found : g.blocks[id]? = some b) (apart : origin ≠ position)
    (here : b.steps[origin]? = some other) (there : b.steps[position]? = some copy) :
    ((g.withRow id b ((b.steps.setIfInBounds position c).setIfInBounds origin w)).steps.flatMap
        f).count x + (f other).count x + (f copy).count x =
      (g.steps.flatMap f).count x + (f w).count x + (f c).count x := by
  have here' : (b.steps.setIfInBounds position c).toList[origin]? = some other := by
    rw [Array.getElem?_toList, Array.getElem?_setIfInBounds_ne apart.symm, here]
  rw [← Array.getElem?_toList] at there
  have first := count_flatMap_set (f := f) (y := c) (b := x) there
  have second := count_flatMap_set (f := f) (y := w) (b := x) here'
  have row : g.rows[id]? = some b.steps.toList := getElem?_rows found
  have whole := count_flatMap_set (f := fun row => row.flatMap f)
    (y := ((b.steps.setIfInBounds position c).setIfInBounds origin w).toList) (b := x) row
  rw [← Array.toList_setIfInBounds] at first second
  have split (rows : List (List Step)) : rows.flatten.flatMap f =
      rows.flatMap fun row => row.flatMap f := by
    rw [← List.flatMap_id', List.flatMap_assoc]
  rw [steps_eq_flatten, withRow, rows_setSteps, steps_eq_flatten, split, split]
  omega

end Graph

/-! ### What a merge counts -/

namespace Merge.Fits

variable {writer : Step} {steps : List Step} {dest : Address} {merge : Merge}

/-- The two steps read together what the writer reads, and write the destination once. -/
theorem counts (h : merge.Fits writer steps dest) (a : Address) :
    merge.writer.args.count a + merge.copy.args.count a = writer.args.count a ∧
      merge.writer.dest?.toList.count a + merge.copy.dest?.toList.count a = [dest].count a := by
  cases h with
  | forward is =>
      subst is
      exact ⟨Nat.zero_add _, Nat.zero_add _⟩
  | retarget computes =>
      rw [Step.args_withDest, Step.dest_withDest computes]
      exact ⟨rfl, rfl⟩

/-- One of the two is neutral, where neither was before. -/
theorem neutrals (h : merge.Fits writer steps dest) :
    [merge.writer].count .neutral + [merge.copy].count .neutral = 1 ∧
      [writer].count .neutral = 0 := by
  have none {step : Step} (other : step ≠ .neutral) : [step].count .neutral = 0 :=
    List.count_eq_zero.2 fun mem => other (List.mem_singleton.1 mem).symm
  cases h with
  | forward is =>
      subst is
      exact ⟨rfl, rfl⟩
  | retarget computes =>
      have computes' := (Step.computes_withDest dest writer).trans computes
      exact ⟨by rw [none (Step.ne_neutral_of_computes computes')]; rfl,
        none (Step.ne_neutral_of_computes computes)⟩

theorem isCall (h : merge.Fits writer steps dest) : merge.writer.op.isCall = writer.op.isCall := by
  cases h with
  | forward is =>
      subst is
      rfl
  | retarget => rw [Step.op_withDest]

end Merge.Fits

namespace Graph

variable {g g' : Graph} {id origin position : Nat} {b : Block} {middle : Int16} {dest : Address}
  {writer : Step} {merge : Merge}

namespace Site

/-- The temporary is read once less; all else is read as often as before. -/
theorem reads (found : g.blocks[id]? = some b)
    (site : g.Site b.steps origin position middle dest writer merge) (a : Address) :
    readCount (g.withRow id b (merge.into b.steps origin position)).steps a +
      [Address.temp middle].count a = readCount g.steps a := by
  have changed := count_withRow (f := Step.args) (x := a) (w := merge.writer) (c := merge.copy)
    found (Nat.ne_of_lt site.lt) site.here site.copy
  have read := (site.fits.counts a).1
  have copied : (Step.copy dest (.temp middle)).args.count a = [Address.temp middle].count a := rfl
  rw [readCount, readCount, Merge.into]
  omega

/-- It is written once less, too; all else is written as often as before. -/
theorem writes (found : g.blocks[id]? = some b)
    (site : g.Site b.steps origin position middle dest writer merge) (a : Address) :
    writeCount (g.withRow id b (merge.into b.steps origin position)).steps a +
      [Address.temp middle].count a = writeCount g.steps a := by
  have changed := count_withRow (f := fun step => step.dest?.toList) (x := a) (w := merge.writer)
    (c := merge.copy) found (Nat.ne_of_lt site.lt) site.here site.copy
  have written := (site.fits.counts a).2
  have copied : (Step.copy dest (.temp middle)).dest?.toList.count a = [dest].count a := rfl
  have gives : writer.dest?.toList.count a = [Address.temp middle].count a := by
    rw [site.gives]
    rfl
  rw [writeCount, writeCount, Merge.into]
  omega

theorem neutrals (found : g.blocks[id]? = some b)
    (site : g.Site b.steps origin position middle dest writer merge) :
    (g.withRow id b (merge.into b.steps origin position)).steps.count .neutral =
      g.steps.count .neutral + 1 := by
  have changed := count_withRow (f := fun step => [step]) (x := Step.neutral) (w := merge.writer)
    (c := merge.copy) found (Nat.ne_of_lt site.lt) site.here site.copy
  rw [List.flatMap_singleton', List.flatMap_singleton'] at changed
  obtain ⟨one, none⟩ := site.fits.neutrals
  have copied : [Step.copy dest (.temp middle)].count .neutral = 0 := rfl
  rw [Merge.into]
  omega

/-- The temporary is mentioned nowhere any more, and nothing is that was not before. -/
theorem mentions (found : g.blocks[id]? = some b)
    (site : g.Site b.steps origin position middle dest writer merge) {a : Address} {step : Step}
    (mem : step ∈ (g.withRow id b (merge.into b.steps origin position)).steps) :
    (step.dest? = some a → a ≠ .temp middle ∧ ∃ step ∈ g.steps, step.dest? = some a) ∧
      (a ∈ step.args → a ≠ .temp middle ∧ ∃ step ∈ g.steps, a ∈ step.args) := by
  have read := site.reads found a
  have written := site.writes found a
  constructor
  · intro gives
    have pos := writeCount_pos_iff.2 ⟨step, mem, gives⟩
    refine ⟨?_, writeCount_pos_iff.1 (by omega)⟩
    rintro rfl
    rw [List.count_singleton_self, site.written] at written
    omega
  · intro reads
    have pos := readCount_pos_iff.2 ⟨step, mem, reads⟩
    refine ⟨?_, readCount_pos_iff.1 (by omega)⟩
    rintro rfl
    rw [List.count_singleton_self, site.read] at read
    omega

end Site

/-! ### Rewrites -/

/-- A rewrite of the graph: in a block that can be reached, a copy is merged with the writer of
the temporary that it passes on, as the counts of the graph and the windows of the block are. -/
inductive Rewrite (g : Graph) (middle : Int16) : Graph → Prop where
  | intro {id origin position : Nat} {b : Block} {merge : Merge}
    (reached : Relation.ReflTransGen g.Edge 0 id) (found : g.blocks[id]? = some b)
    (merges : mergeAt? (argumentCopies b.steps) b.steps (.ofGraph g) position =
      some (origin, .temp middle, merge)) :
    Rewrite g middle (g.withRow id b (merge.into b.steps origin position))

/-- A number of rewrites, one after the other, and the temporaries that they forward. -/
inductive Rewrites (g : Graph) : List Int16 → Graph → Prop where
  | nil : Rewrites g [] g
  | snoc {middles : List Int16} {g' g'' : Graph} {middle : Int16}
    (before : Rewrites g middles g') (last : g'.Rewrite middle g'') :
    Rewrites g (middles ++ [middle]) g''

/-- A rewrite takes place at a site. -/
theorem Rewrite.exists_site (h : g.Rewrite middle g') :
    ∃ (id origin position : Nat) (b : Block) (dest : Address) (writer : Step) (merge : Merge),
      Relation.ReflTransGen g.Edge 0 id ∧ g.blocks[id]? = some b ∧
      g.Site b.steps origin position middle dest writer merge ∧
      g' = g.withRow id b (merge.into b.steps origin position) := by
  obtain ⟨reached, found, merges⟩ := h
  obtain ⟨middle', dest, writer, same, site⟩ :=
    (mergeAt?_eq_some_iff (Tally.exact_ofGraph g) found fun _ => rfl).1 merges
  cases same
  exact ⟨_, _, _, _, _, _, _, reached, found, site, rfl⟩

theorem Site.rewrite (reached : Relation.ReflTransGen g.Edge 0 id)
    (found : g.blocks[id]? = some b)
    (site : g.Site b.steps origin position middle dest writer merge) :
    g.Rewrite middle (g.withRow id b (merge.into b.steps origin position)) :=
  .intro reached found ((mergeAt?_eq_some_iff (Tally.exact_ofGraph g) found fun _ => rfl).2
    ⟨middle, dest, writer, rfl, site⟩)

/-- Every rewrite makes one more step neutral, and leaves the temporary mentioned nowhere. -/
theorem Rewrite.forwards (h : g.Rewrite middle g') :
    g'.steps.count .neutral = g.steps.count .neutral + 1 ∧
      ∀ step ∈ g'.steps, ¬ step.Mentions (.temp middle) := by
  obtain ⟨id, origin, position, b, dest, writer, merge, -, found, site, rfl⟩ := h.exists_site
  refine ⟨site.neutrals found, fun step mem => ?_⟩
  rintro (gives | reads)
  · exact ((site.mentions found mem).1 gives).1 rfl
  · exact ((site.mentions found mem).2 reads).1 rfl

/-- A rewrite mentions nothing that was not mentioned before. -/
theorem Rewrite.mentions (h : g.Rewrite middle g') {step : Step} {a : Address}
    (mem : step ∈ g'.steps) (mentions : step.Mentions a) : ∃ step ∈ g.steps, step.Mentions a := by
  obtain ⟨id, origin, position, b, dest, writer, merge, -, found, site, rfl⟩ := h.exists_site
  rcases mentions with gives | reads
  · obtain ⟨-, step, mem, gives⟩ := (site.mentions found mem).1 gives
    exact ⟨step, mem, .inl gives⟩
  · obtain ⟨-, step, mem, reads⟩ := (site.mentions found mem).2 reads
    exact ⟨step, mem, .inr reads⟩

/-- The temporary that is forwarded was mentioned before. -/
theorem Rewrite.mentioned (h : g.Rewrite middle g') :
    ∃ step ∈ g.steps, step.Mentions (.temp middle) := by
  obtain ⟨id, origin, position, b, dest, writer, merge, -, found, site, rfl⟩ := h.exists_site
  obtain ⟨step, mem, reads⟩ := readCount_pos_iff.1 (Nat.lt_of_lt_of_eq Nat.one_pos site.read.symm)
  exact ⟨step, mem, .inr reads⟩

end Graph

/-! ### What becomes of steps and blocks -/

/-- What condensing makes of a step. A copy is made neutral or gets a new source, and a computed
value gets a new destination. Any other step stays the same. -/
inductive Step.Becomes : Step → Step → Prop where
  | same (step : Step) : Becomes step step
  | neutralized (dest source : Address) : Becomes (.copy dest source) .neutral
  | resourced (dest : Address) {source source' : Address} (new : source' ≠ source) :
    Becomes (.copy dest source) (.copy dest source')
  | retargeted {step : Step} {dest : Address} (computes : step.computes = true)
    (new : step.dest? ≠ some dest) : Becomes step (step.withDest dest)

namespace Step.Becomes

variable {step step' step'' : Step} {dest source source' : Address}

theorem copy : (Step.copy dest source).Becomes (.copy dest source') := by
  by_cases old : source' = source
  · rw [old]
    exact .same _
  · exact .resourced dest old

theorem withDest (computes : step.computes = true) : step.Becomes (step.withDest dest) := by
  by_cases old : step.dest? = some dest
  · rw [withDest_of_dest old]
    exact .same _
  · exact .retargeted computes old

theorem trans (first : step.Becomes step') (second : step'.Becomes step'') :
    step.Becomes step'' := by
  cases first with
  | same => exact second
  | neutralized dest source =>
      cases second with
      | same => exact .neutralized dest source
      | retargeted computes => cases computes
  | resourced =>
      cases second with
      | same => exact copy
      | neutralized => exact .neutralized _ _
      | resourced => exact copy
      | retargeted computes => cases computes
  | retargeted computes =>
      generalize is : step.withDest _ = step' at second
      have computes' : step'.computes = true := by
        rw [← is, computes_withDest, computes]
      cases second with
      | same =>
          rw [← is]
          exact withDest computes
      | neutralized | resourced => cases computes'
      | retargeted =>
          rw [← is, withDest_withDest]
          exact withDest computes

end Step.Becomes

theorem Merge.Fits.becomes {writer : Step} {steps : List Step} {dest : Address} {merge : Merge}
    (h : merge.Fits writer steps dest) (middle : Address) :
    writer.Becomes merge.writer ∧ (Step.copy dest middle).Becomes merge.copy := by
  cases h with
  | forward is => exact ⟨is ▸ .neutralized _ _, .copy⟩
  | retarget computes => exact ⟨.withDest computes, .neutralized _ _⟩

/-- What condensing makes of a block: the same edges, and as many steps. -/
structure Block.Becomes (b b' : Block) : Prop where
  truthy : b'.truthy = b.truthy
  falsy : b'.falsy = b.falsy
  size : b'.steps.size = b.steps.size
  steps : ∀ (j : Nat) (step step' : Step), b.steps[j]? = some step → b'.steps[j]? = some step' →
    step.Becomes step'

namespace Block.Becomes

variable {b b' b'' : Block}

theorem refl (b : Block) : b.Becomes b := by
  refine ⟨rfl, rfl, rfl, fun j step step' at_ at' => ?_⟩
  rw [at_] at at'
  cases at'
  exact .same _

theorem trans (first : b.Becomes b') (second : b'.Becomes b'') : b.Becomes b'' := by
  refine ⟨second.truthy.trans first.truthy, second.falsy.trans first.falsy,
    second.size.trans first.size, fun j step step'' at_ at'' => ?_⟩
  have lt := (Array.getElem?_eq_some_iff.1 at_).1
  rw [← first.size] at lt
  have at' := Array.getElem?_eq_getElem lt
  exact (first.steps j _ _ at_ at').trans (second.steps j _ _ at' at'')

theorem successors (h : b.Becomes b') : b'.successors = b.successors := by
  rw [Block.successors, Block.successors, h.truthy, h.falsy]

end Block.Becomes

namespace Graph

variable {g g' g'' : Graph} {id origin position : Nat} {b : Block} {middle : Int16}
  {dest : Address} {writer : Step} {merge : Merge} {middles : List Int16}

/-- What condensing makes of a graph: its blocks change in place, and those that cannot be
reached do not change. -/
structure InPlace (g g' : Graph) : Prop where
  params : g'.paramCount = g.paramCount
  size : g'.blocks.size = g.blocks.size
  blocks : ∀ (id : Nat) (b b' : Block), g.blocks[id]? = some b → g'.blocks[id]? = some b' →
    b.Becomes b'
  unreached : ∀ id, ¬ Relation.ReflTransGen g.Edge 0 id → g'.blocks[id]? = g.blocks[id]?

namespace InPlace

theorem refl (g : Graph) : g.InPlace g := by
  refine ⟨rfl, rfl, fun id b b' found found' => ?_, fun _ _ => rfl⟩
  rw [found] at found'
  cases found'
  exact .refl _

/-- There is the same block, as far as its edges go. -/
theorem exists_block (h : g.InPlace g') (found : g.blocks[id]? = some b) :
    ∃ b', g'.blocks[id]? = some b' ∧ b.Becomes b' := by
  have lt := (Array.getElem?_eq_some_iff.1 found).1
  rw [← h.size] at lt
  have found' := Array.getElem?_eq_getElem lt
  exact ⟨_, found', h.blocks id _ _ found found'⟩

theorem successors (h : g.InPlace g') :
    g'.blocks.map Block.successors = g.blocks.map Block.successors := by
  refine Array.ext_getElem? fun id => ?_
  rw [Array.getElem?_map, Array.getElem?_map]
  cases found : g.blocks[id]? with
  | none =>
      rw [Array.getElem?_eq_none_iff, ← h.size, ← Array.getElem?_eq_none_iff] at found
      rw [found]
  | some b =>
      obtain ⟨b', found', becomes⟩ := h.exists_block found
      rw [found', Option.map_some, Option.map_some, becomes.successors]

theorem edge (h : g.InPlace g') : g'.Edge = g.Edge := by
  have eq (g : Graph) (source target : Nat) : g.Edge source target ↔
      ∃ targets, (g.blocks.map Block.successors)[source]? = some targets ∧ target ∈ targets := by
    rw [Edge, Array.getElem?_map]
    cases g.blocks[source]? with
    | none => simp
    | some b => simp
  funext source target
  rw [eq_iff_iff, eq, eq, h.successors]

theorem trans (first : g.InPlace g') (second : g'.InPlace g'') : g.InPlace g'' := by
  refine ⟨second.params.trans first.params, second.size.trans first.size,
    fun id b b'' found found'' => ?_, fun id unreached => ?_⟩
  · obtain ⟨b', found', becomes⟩ := first.exists_block found
    exact becomes.trans (second.blocks id b' b'' found' found'')
  · have unreached' := unreached
    rw [← first.edge] at unreached'
    exact (second.unreached id unreached').trans (first.unreached id unreached)

end InPlace

/-- The steps of a row that a merge changes. -/
theorem Site.becomes (site : g.Site b.steps origin position middle dest writer merge) :
    b.Becomes { b with steps := merge.into b.steps origin position } := by
  refine ⟨rfl, rfl, ?_, fun j step step' at_ at' => ?_⟩
  · rw [Merge.into, Array.size_setIfInBounds, Array.size_setIfInBounds]
  · obtain ⟨writers, copies⟩ := site.fits.becomes (.temp middle)
    rw [Merge.into, Array.getElem?_setIfInBounds, Array.getElem?_setIfInBounds] at at'
    split at at'
    · rename_i same
      subst same
      split at at' <;> cases at'
      rw [site.here] at at_
      cases at_
      exact writers
    · split at at'
      · rename_i same
        subst same
        split at at' <;> cases at'
        rw [site.copy] at at_
        cases at_
        exact copies
      · rw [at_] at at'
        cases at'
        exact .same _

theorem Rewrite.inPlace (h : g.Rewrite middle g') : g.InPlace g' := by
  obtain ⟨id, origin, position, b, dest, writer, merge, reached, found, site, rfl⟩ :=
    h.exists_site
  refine ⟨rfl, Array.size_setIfInBounds, fun id' b1 b2 found1 found2 => ?_,
    fun id' unreached => ?_⟩
  · by_cases same : id' = id
    · subst same
      rw [getElem?_withRow found] at found2
      rw [found] at found1
      cases found1
      cases found2
      exact site.becomes
    · rw [getElem?_withRow_ne same] at found2
      rw [found1] at found2
      cases found2
      exact .refl _
  · refine getElem?_withRow_ne ?_
    rintro rfl
    exact unreached reached

/-- What a number of rewrites do. Each of them makes another step neutral, and the temporaries
that they forward are different ones, mentioned nowhere in the end. -/
theorem Rewrites.spec (h : g.Rewrites middles g') :
    g.InPlace g' ∧ g'.steps.count .neutral = g.steps.count .neutral + middles.length ∧
      middles.Nodup ∧ ∀ t ∈ middles, ∀ step ∈ g'.steps, ¬ step.Mentions (.temp t) := by
  induction h with
  | nil => exact ⟨.refl g, rfl, List.nodup_nil, fun _ mem => nomatch mem⟩
  | snoc _ last ih =>
      obtain ⟨inPlace, neutrals, distinct, lacks⟩ := ih
      obtain ⟨one, gone⟩ := last.forwards
      refine ⟨inPlace.trans last.inPlace, ?_, ?_, fun t mem step mem' mentions => ?_⟩
      · rw [one, neutrals, List.length_append, List.length_singleton, Nat.add_assoc]
      · rw [← List.concat_eq_append, List.nodup_concat]
        refine ⟨fun mem => ?_, distinct⟩
        obtain ⟨step, mem', mentions⟩ := last.mentioned
        exact lacks _ mem step mem' mentions
      · rcases List.mem_append.1 mem with mem | mem
        · obtain ⟨step, mem', mentions⟩ := last.mentions mem' mentions
          exact lacks t mem step mem' mentions
        · rw [List.mem_singleton] at mem
          subst mem
          exact gone step mem' mentions

end Graph

end RegisterCode
