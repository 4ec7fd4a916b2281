import RegisterCode.Proofs.Flow.Rewrites

/-!
A merge opens no new site behind itself (`Graph.Site.settled`): where two steps could not be merged
before, for a call between them, a pin, or a read or write in the way, they cannot be afterwards.
So one scan of a block, from its first step to its last, leaves nothing to merge.
-/

namespace RegisterCode

/-! ### Which steps are pinned -/

/-- A position lies in the window of a call. -/
def Fed (row : Array Step) (i : Nat) : Prop :=
  ∃ (j : Nat) (step : Step) (n : Nat), row[j]? = some step ∧ step.window? = some n ∧ j - n ≤ i ∧
    i < j

/-- Whatever the steps from `position` on have marked lies in the window of a call. -/
structure Backed (steps : List Step) (position : Nat) (state : Nat × Nat × List Bool) : Prop where
  reached : state.1 = position
  floor : state.2.1 = position + steps.length ∨ ∃ (j : Nat) (step : Step) (n : Nat),
    steps[j]? = some step ∧ step.window? = some n ∧ position + j - n ≤ state.2.1
  marks : ∀ i : Nat, state.2.2[i]? = some true → ∃ copy : Step, steps[i]? = some copy ∧
    copy.isCopy = true ∧ ∃ (j : Nat) (step : Step) (n : Nat), steps[j]? = some step ∧
      step.window? = some n ∧ position + j - n ≤ position + i ∧ i < j

theorem backed_foldr (steps : List Step) (position : Nat) :
    Backed steps position
      (steps.foldr pinStep (position + steps.length, position + steps.length, [])) := by
  induction steps generalizing position with
  | nil => exact ⟨rfl, .inl rfl, by simp⟩
  | cons first steps ih =>
      have rest := ih (position + 1)
      rw [Nat.add_right_comm, Nat.add_assoc] at rest
      rw [List.length_cons, List.foldr_cons]
      generalize steps.foldr pinStep (position + (steps.length + 1), position + (steps.length + 1),
        []) = state at rest
      obtain ⟨at_, floor, marks⟩ := state
      obtain ⟨reached, low, backed⟩ := rest
      dsimp only at reached low backed
      subst reached
      have later : floor = position + (steps.length + 1) ∨ ∃ (j : Nat) (step : Step) (n : Nat),
          (first :: steps)[j + 1]? = some step ∧ step.window? = some n ∧
            position + (j + 1) - n ≤ floor := by
        refine low.imp (fun end_ => by omega) ?_
        rintro ⟨j, step, n, found, window, le⟩
        exact ⟨j, step, n, found, window, by omega⟩
      refine ⟨rfl, ?_, fun i mark => ?_⟩
      · simp only [pinStep, Nat.add_sub_cancel]
        split
        · rename_i n window
          rcases Nat.le_total floor (position - n) with le | le
          · rw [Nat.min_eq_left le]
            refine later.imp_right ?_
            rintro ⟨j, step, n, found, window, le⟩
            exact ⟨j + 1, step, n, found, window, le⟩
          · exact .inr ⟨0, first, n, rfl, window, by omega⟩
        · refine later.imp_right ?_
          rintro ⟨j, step, n, found, window, le⟩
          exact ⟨j + 1, step, n, found, window, le⟩
      · cases i with
        | zero =>
            simp only [pinStep, Nat.add_sub_cancel, List.getElem?_cons_zero, Option.some.injEq,
              Bool.and_eq_true, decide_eq_true_eq] at mark
            refine ⟨first, rfl, mark.1, ?_⟩
            rcases later with end_ | ⟨j, step, n, found, window, le⟩
            · omega
            · exact ⟨j + 1, step, n, found, window, by omega, Nat.succ_pos j⟩
        | succ i =>
            obtain ⟨copy, found, isCopy, j, step, n, found', window, le, lt⟩ := backed i mark
            exact ⟨copy, found, isCopy, j + 1, step, n, found', window, by omega, by omega⟩

/-- The steps that are marked are the copies in the windows of calls. -/
theorem argumentCopies_getD_iff {row : Array Step} {i : Nat} :
    (argumentCopies row).getD i false = true ↔
      (∃ copy : Step, row[i]? = some copy ∧ copy.isCopy = true) ∧ Fed row i := by
  constructor
  · intro mark
    have backed := backed_foldr row.toList 0
    rw [Nat.zero_add, Array.length_toList] at backed
    rw [Array.getD_eq_getD_getElem?, argumentCopies_eq, List.getElem?_toArray] at mark
    have marked := backed.marks i
    simp only [Array.getElem?_toList, Nat.zero_add] at marked
    suffices marks : (row.toList.foldr pinStep (row.size, row.size, [])).2.2[i]? = some true by
      obtain ⟨copy, found, isCopy, fed⟩ := marked marks
      exact ⟨⟨copy, found, isCopy⟩, fed⟩
    cases found : ((row.toList.foldr pinStep (row.size, row.size, [])).2.2[i]?) with
    | none =>
        rw [found] at mark
        cases mark
    | some m =>
        rw [found] at mark
        exact congrArg some mark
  · rintro ⟨⟨copy, found, isCopy⟩, j, step, n, found', window, le, lt⟩
    exact argumentCopies_of_window found' window le lt found isCopy

/-! ### The row after a merge -/

namespace Graph

variable {g : Graph} {row : Array Step} {id origin position : Nat} {b : Block} {middle : Int16}
  {dest : Address} {writer : Step} {merge : Merge}

namespace Site

/-- Neither of the two steps that take part in a merge calls anything, before or after it. -/
theorem no_window (site : g.Site row origin position middle dest writer merge) :
    writer.window? = none ∧ merge.writer.window? = none ∧ merge.copy.window? = none := by
  cases site.fits with
  | forward is =>
      subst is
      exact ⟨rfl, rfl, rfl⟩
  | retarget computes =>
      have computes' := (Step.computes_withDest dest writer).trans computes
      exact ⟨Step.window_of_computes computes, Step.window_of_computes computes', rfl⟩

theorem not_isCopy (site : g.Site row origin position middle dest writer merge) :
    merge.writer.isCopy = false := by
  cases site.fits with
  | forward => rfl
  | retarget computes =>
      exact Step.isCopy_of_computes ((Step.computes_withDest dest writer).trans computes)

theorem getElem?_into (site : g.Site row origin position middle dest writer merge) (j : Nat) :
    (merge.into row origin position)[j]? =
      if j = origin then some merge.writer else if j = position then some merge.copy
      else row[j]? := by
  have lt := (Array.getElem?_eq_some_iff.1 site.here).1
  have lt' := (Array.getElem?_eq_some_iff.1 site.copy).1
  rw [Merge.into, Array.getElem?_setIfInBounds, Array.getElem?_setIfInBounds,
    Array.size_setIfInBounds, if_pos lt, if_pos lt']
  simp only [eq_comm]

theorem window_into (site : g.Site row origin position middle dest writer merge) {j n : Nat} :
    (∃ step : Step, (merge.into row origin position)[j]? = some step ∧ step.window? = some n) ↔
      ∃ step : Step, row[j]? = some step ∧ step.window? = some n := by
  obtain ⟨first, second, third⟩ := site.no_window
  rw [site.getElem?_into]
  split
  · rename_i same
    subst same
    rw [site.here]
    simp [first, second]
  · split
    · rename_i same
      subst same
      rw [site.copy]
      have copied : (Step.copy dest (.temp middle)).window? = none := rfl
      simp [third, copied]
    · rfl

theorem fed_into (site : g.Site row origin position middle dest writer merge) {i : Nat} :
    Fed (merge.into row origin position) i ↔ Fed row i := by
  constructor
  · rintro ⟨j, step, n, found, window, le, lt⟩
    obtain ⟨step', found', window'⟩ := site.window_into.1 ⟨step, found, window⟩
    exact ⟨j, step', n, found', window', le, lt⟩
  · rintro ⟨j, step, n, found, window, le, lt⟩
    obtain ⟨step', found', window'⟩ := site.window_into.2 ⟨step, found, window⟩
    exact ⟨j, step', n, found', window', le, lt⟩

/-- A merge leaves the pins as they are. -/
theorem pins (site : g.Site row origin position middle dest writer merge) (i : Nat) :
    (argumentCopies (merge.into row origin position)).getD i false =
      (argumentCopies row).getD i false := by
  rw [Bool.eq_iff_iff]
  constructor
  · intro pinned
    obtain ⟨⟨copy, found, isCopy⟩, fed⟩ := argumentCopies_getD_iff.1 pinned
    refine argumentCopies_getD_iff.2 ⟨?_, site.fed_into.1 fed⟩
    rw [site.getElem?_into] at found
    split at found
    · cases found
      rw [site.not_isCopy] at isCopy
      cases isCopy
    · split at found
      · rename_i same
        subst same
        exact ⟨_, site.copy, rfl⟩
      · exact ⟨copy, found, isCopy⟩
  · intro pinned
    obtain ⟨⟨copy, found, isCopy⟩, fed⟩ := argumentCopies_getD_iff.1 pinned
    refine argumentCopies_getD_iff.2 ⟨⟨copy, ?_, isCopy⟩, site.fed_into.2 fed⟩
    rw [site.getElem?_into, if_neg, if_neg, found]
    · rintro rfl
      rw [site.unpinned.2] at pinned
      cases pinned
    · rintro rfl
      rw [site.unpinned.1] at pinned
      cases pinned

/-- A step between two places of the row stays there in a merge, or is the writer. -/
theorem between_into (site : g.Site row origin position middle dest writer merge) {i j : Nat}
    {step : Step} (le : j ≤ position) (mem : step ∈ between row i j) :
    step ∈ between (merge.into row origin position) i j ∨
      (step = writer ∧ i < origin ∧ origin < j ∧
        merge.writer ∈ between (merge.into row origin position) i j) := by
  obtain ⟨q, low, high, found⟩ := mem_between.1 mem
  by_cases same : q = origin
  · subst same
    rw [site.here] at found
    cases found
    refine .inr ⟨rfl, low, high, mem_between.2 ⟨q, low, high, ?_⟩⟩
    rw [site.getElem?_into, if_pos rfl]
  · refine .inl (mem_between.2 ⟨q, low, high, ?_⟩)
    rw [site.getElem?_into, if_neg same, if_neg (by omega), found]

end Site

/-! ### No new sites -/

/-- There is nothing to merge at a position of a block. -/
def Settled (g : Graph) (id position : Nat) : Prop :=
  ∀ (b : Block) (origin : Nat) (middle : Int16) (dest : Address) (writer : Step) (merge : Merge),
    g.blocks[id]? = some b → ¬ g.Site b.steps origin position middle dest writer merge

/-- Only temporaries are written. -/
def WritesTemps (g : Graph) : Prop :=
  ∀ step ∈ g.steps, ∀ a ∈ step.dest?, a.isTemp = true

instance (g : Graph) : Decidable g.WritesTemps :=
  inferInstanceAs (Decidable (∀ step ∈ g.steps, ∀ a ∈ step.dest?, a.isTemp = true))

namespace Site

variable {row' : Array Step} {origin' position' : Nat} {middle' : Int16} {dest' : Address}
  {writer' : Step} {merge' : Merge}

/-- A site is a site already by the counts of the graph before a merge. -/
theorem of_merged (found : g.blocks[id]? = some b)
    (site : g.Site b.steps origin position middle dest writer merge)
    (site' : (g.withRow id b (merge.into b.steps origin position)).Site row' origin' position'
      middle' dest' writer' merge') :
    g.Site row' origin' position' middle' dest' writer' merge' := by
  have read := site.reads found (.temp middle')
  have written := site.writes found (.temp middle')
  have other : Address.temp middle' ≠ .temp middle := by
    intro same
    rw [same] at read
    have once := site'.read
    rw [same] at once
    rw [site.read, once, List.count_singleton_self] at read
    cases read
  rw [List.count_eq_zero.2 (by rwa [List.mem_singleton]), Nat.add_zero] at read written
  exact ⟨site'.lt, site'.here, site'.gives, site'.copy, read ▸ site'.read, written ▸ site'.written,
    site'.unpinned, site'.plain, site'.fits⟩

/-- The two steps of a site in front of the copy that was merged stood there before: a step that is
left where the writer was is no copy, and what it writes is not read up to the copy. -/
theorem same_steps (site : g.Site row origin position middle dest writer merge)
    {g' : Graph} (lt : position' < position)
    (site' : g'.Site (merge.into row origin position) origin' position' middle' dest' writer'
      merge') :
    row[origin']? = some writer' ∧ row[position']? = some (.copy dest' (.temp middle')) := by
  have here' := site'.here
  have copy' := site'.copy
  have lt' := site'.lt
  rw [site.getElem?_into, if_neg (c := position' = position) (by omega)] at copy'
  rw [site.getElem?_into, if_neg (c := origin' = position) (by omega)] at here'
  split at copy'
  · have plain := site.not_isCopy
    rw [Option.some.inj copy'] at plain
    cases plain
  · split at here'
    · rename_i same
      have gives := site'.gives
      rw [← Option.some.inj here'] at gives
      cases site.fits with
      | forward => cases gives
      | retarget computes _ unread =>
          rw [Step.dest_withDest computes] at gives
          cases gives
          have inside : Step.copy dest' (.temp middle') ∈ between row origin position :=
            mem_between.2 ⟨position', by omega, lt, copy'⟩
          exact (unread _ inside (List.mem_singleton_self _)).elim
    · exact ⟨here', copy'⟩

/-- They fitted before, too: the writer that was merged is not in their way, since nothing mentions
any more what it wrote, and what it reads is not written up to the copy. -/
theorem same_fits (temps : g.WritesTemps) (found : g.blocks[id]? = some b)
    (site : g.Site b.steps origin position middle dest writer merge) (lt : position' < position)
    (site' : (g.withRow id b (merge.into b.steps origin position)).Site
      (merge.into b.steps origin position) origin' position' middle' dest' writer' merge') :
    merge'.Fits writer' (between b.steps origin' position') dest' := by
  have copy' := (site.same_steps lt site').2
  have row' := getElem?_withRow found (merge.into b.steps origin position)
  have reader := mem_steps_iff.2 ⟨id, _, position', row', site'.copy⟩
  have giver := mem_steps_iff.2 ⟨id, _, origin', row', site'.here⟩
  cases site'.fits with
  | @forward middle source is steady =>
      refine .forward is fun temp step mem => ?_
      rcases site.between_into (Nat.le_of_lt lt) mem with mem | ⟨rfl, -, -, mem⟩
      · exact steady temp step mem
      · rw [site.gives]
        intro same
        cases same
        refine ((site.mentions found giver).2 ?_).1 rfl
        rw [is]
        exact List.mem_singleton_self _
  | retarget computes unwritten unread =>
      refine .retarget computes (fun step mem => ?_) fun step mem => ?_
      · rcases site.between_into (Nat.le_of_lt lt) mem with mem | ⟨rfl, -, -, mem⟩
        · exact unwritten step mem
        · rw [site.gives]
          intro same
          cases same
          exact ((site.mentions found reader).1 rfl).1 rfl
      · rcases site.between_into (Nat.le_of_lt lt) mem with mem | ⟨rfl, -, less, mem⟩
        · exact unread step mem
        · have free := unread _ mem
          cases site.fits with
          | forward is steady =>
              -- Only a temporary is looked after: writes to anything else do not keep a copy from
              -- being forwarded past them.
              subst is
              intro same
              obtain rfl := List.mem_singleton.1 same
              have temp := temps _ (mem_steps_iff.2 ⟨id, b, position', found, copy'⟩) _ rfl
              exact steady temp _ (mem_between.2 ⟨position', less, lt, copy'⟩) rfl
          | retarget => rwa [Step.args_withDest] at free

/-- A site in front of the copy that was merged was a site before. -/
theorem earlier (temps : g.WritesTemps) (found : g.blocks[id]? = some b)
    (site : g.Site b.steps origin position middle dest writer merge) (lt : position' < position)
    (site' : (g.withRow id b (merge.into b.steps origin position)).Site
      (merge.into b.steps origin position) origin' position' middle' dest' writer' merge') :
    g.Site b.steps origin' position' middle' dest' writer' merge' := by
  obtain ⟨here', copy'⟩ := site.same_steps lt site'
  have fits := site.same_fits temps found lt site'
  obtain ⟨lt', -, gives, -, read, written, unpinned, plain, -⟩ := site.of_merged found site'
  rw [site.pins, site.pins] at unpinned
  refine ⟨lt', here', gives, copy', read, written, unpinned, fun step mem => ?_, fits⟩
  rcases site.between_into (Nat.le_of_lt lt) mem with mem | ⟨rfl, -, -, mem⟩
  · exact plain step mem
  · rw [← site.fits.isCall]
    exact plain _ mem

/-- If there is a site at the copy that was merged, it was copied from a temporary that was itself
passed on by the writer, so that there was a site at the writer. -/
theorem chained (found : g.blocks[id]? = some b)
    (site : g.Site b.steps origin position middle dest writer merge)
    (site' : (g.withRow id b (merge.into b.steps origin position)).Site
      (merge.into b.steps origin position) origin' position middle' dest' writer' merge') :
    ∃ merge'', g.Site b.steps origin' origin middle' (.temp middle) writer' merge'' := by
  have here' := site'.here
  have copy' := site'.copy
  have lt := site.lt
  have lt' := site'.lt
  rw [site.getElem?_into, if_neg (by omega), if_pos rfl, Option.some.injEq] at copy'
  rw [site.getElem?_into, if_neg (c := origin' = position) (by omega)] at here'
  obtain ⟨-, -, -, -, read, written, unpinned, plain, fits⟩ := site.of_merged found site'
  rw [site.pins, site.pins] at unpinned
  have shorter {step : Step} (before : origin' < origin) (mem : step ∈ between b.steps origin' origin) :
      step ∈ between (merge.into b.steps origin position) origin' position := by
    obtain ⟨q, low, high, at_⟩ := mem_between.1 mem
    refine mem_between.2 ⟨q, low, by omega, ?_⟩
    rw [site.getElem?_into, if_neg (by omega), if_neg (by omega), at_]
  cases site.fits with
  | retarget => cases copy'
  | @forward middle1 source is steady =>
      cases copy'
      have apart : origin' ≠ origin := by
        intro same
        rw [if_pos same] at here'
        cases here'
        cases site'.gives
      rw [if_neg apart] at here'
      -- The source is not written between the two steps, so it was written in front of both.
      have before : origin' < origin := by
        rcases Nat.lt_or_gt_of_ne apart with before | behind
        · exact before
        · exact absurd site'.gives (steady rfl _ (mem_between.2 ⟨origin', behind, lt', here'⟩))
      have there : b.steps[origin]? = some (.copy (.temp middle) (.temp middle')) := by
        have gives := site.gives
        rw [is] at gives
        cases gives
        rw [site.here, is]
      have plain' : ∀ step ∈ between b.steps origin' origin, step.op.isCall = false :=
        fun step mem => plain step (shorter before mem)
      cases fits with
      | forward is' steady' =>
          exact ⟨_, before, here', site'.gives, there, read, written,
            ⟨unpinned.1, site.unpinned.1⟩, plain',
            .forward is' fun temp step mem => steady' temp step (shorter before mem)⟩
      | retarget computes =>
          -- `middle` is mentioned by the two steps only, neither of which is in between here.
          refine ⟨_, before, here', site'.gives, there, read, written,
            ⟨unpinned.1, site.unpinned.1⟩, plain', .retarget computes (fun step mem gives => ?_)
              fun step mem reads => ?_⟩
          · obtain ⟨q, -, high, at_⟩ := mem_between.1 mem
            have same := site.writer_unique found at_ gives
            omega
          · obtain ⟨q, -, high, at_⟩ := mem_between.1 mem
            have same := site.reader_unique found at_ reads
            omega

/-- If nothing was left to merge in front of a position, then nothing is left up to there once
the copy at the position is merged. -/
theorem settled (temps : g.WritesTemps) (found : g.blocks[id]? = some b)
    (site : g.Site b.steps origin position middle dest writer merge)
    (before : ∀ j < position, g.Settled id j) {j : Nat} (le : j ≤ position) :
    (g.withRow id b (merge.into b.steps origin position)).Settled id j := by
  intro b' origin' middle' dest' writer' merge' found' site'
  rw [getElem?_withRow found] at found'
  cases found'
  rcases Nat.lt_or_eq_of_le le with lt | rfl
  · exact before j lt _ _ _ _ _ _ found (site.earlier temps found lt site')
  · obtain ⟨merge'', site''⟩ := site.chained found site'
    exact before origin site.lt _ _ _ _ _ _ found site''

/-- A merge opens no site in another block. -/
theorem settled_other (found : g.blocks[id]? = some b)
    (site : g.Site b.steps origin position middle dest writer merge) {id' j : Nat}
    (other : id' ≠ id) (settled : g.Settled id' j) :
    (g.withRow id b (merge.into b.steps origin position)).Settled id' j := by
  intro b' origin' middle' dest' writer' merge' found' site'
  rw [getElem?_withRow_ne other] at found'
  exact settled _ _ _ _ _ _ found' (site.of_merged found site')

theorem writesTemps (temps : g.WritesTemps) (found : g.blocks[id]? = some b)
    (site : g.Site b.steps origin position middle dest writer merge) :
    (g.withRow id b (merge.into b.steps origin position)).WritesTemps := by
  intro step mem a gives
  obtain ⟨-, step', mem', gives'⟩ := (site.mentions found mem).1 gives
  exact temps step' mem' a gives'

end Site

end Graph

end RegisterCode
