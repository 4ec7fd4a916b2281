import RegisterCode.Proofs.Flow.Journey

/-!
The rows of a graph: the steps of each block. Compiling draws them in few ways
(`Drawn`), from which it follows that a row is a straight line. A jump is followed by
nothing but markers, jumps land only at the beginning of a row, and the window of a
call lies in the row of the call.
-/

namespace RegisterCode

/-- The steps of each block. -/
def Graph.rows (g : Graph) : List (List Step) := g.blocks.toList.map fun b => b.steps.toList

theorem Graph.steps_eq_flatten (g : Graph) : g.steps = g.rows.flatten := by
  rw [steps, rows, List.flatMap_def]

theorem Graph.steps_congr {g g' : Graph} (h : g.rows = g'.rows) : g.steps = g'.steps := by
  rw [steps_eq_flatten, steps_eq_flatten, h]

/-- The rows that compiling draws, the last of which is still being drawn. -/
inductive Drawn : List (List Step) → Prop where
  | entry : Drawn [[]]
  | step {rows : List (List Step)} {row : List Step} {step : Step} (before : Drawn (rows ++ [row]))
    (quiet : step.marker = .condensed) : Drawn (rows ++ [row ++ [step]])
  /-- A conditional jump ends the row, and the body of the branch begins another one. -/
  | branch {rows : List (List Step)} {row : List Step} (a : Address)
    (before : Drawn (rows ++ [row])) :
    Drawn (rows ++ [row ++ [.actOnTwo .jumpElse a (.immediate 0), .act .savePatch], []])
  /-- A row that a jump leads to. -/
  | land {rows : List (List Step)} {row : List Step} {marker : Op}
    (patches : marker = .patchJumpElse ∨ marker = .patchJump) (before : Drawn (rows ++ [row])) :
    Drawn (rows ++ [row, [.act .nop, .act marker]])
  /-- A jump over the second branch ends the row, and that branch begins another one. -/
  | turn {rows : List (List Step)} {row : List Step} (before : Drawn (rows ++ [row])) :
    Drawn (rows ++ [row ++ [.actOn .jump (.immediate 0), .act .savePatch, .act .shufflePatch],
      [.act .nop, .act .patchJumpElse]])

/-- The markers that say where a jump gets its target. -/
def Op.IsPatch (op : Op) : Prop :=
  op = .savePatch ∨ op = .shufflePatch ∨ op = .patchJump ∨ op = .patchJumpElse

instance (op : Op) : Decidable op.IsPatch := inferInstanceAs (Decidable (_ ∨ _))

/-- A straight line of steps. -/
structure Straight (row : List Step) : Prop where
  nop : ∀ i, row[i]? = some (.act .nop) → i = 0
  jump : ∀ (i j : Nat) (here there : Step), row[i]? = some here → here.marker.IsJump → i < j →
    row[j]? = some there → ∃ op, there = .act op
  window : ∀ (j : Nat) (step : Step) (n : Nat), row[j]? = some step → step.window? = some n → n ≤ j

namespace Drawn

variable {rows : List (List Step)} {row : List Step}

/-- What is known of a row that is still being drawn: no jump has ended it. -/
structure Ongoing (row : List Step) : Prop where
  nop : ∀ i, row[i]? = some (.act .nop) → i = 0
  jump : ∀ step ∈ row, ¬ step.marker.IsJump

/-- What is known of a row that has been drawn, apart from its windows. -/
structure Complete (row : List Step) : Prop where
  nop : ∀ i, row[i]? = some (.act .nop) → i = 0
  jump : ∀ (i j : Nat) (here there : Step), row[i]? = some here → here.marker.IsJump → i < j →
    row[j]? = some there → ∃ op, there = .act op ∧ op.IsPatch

/-- A row that no jump has ended can be ended by one, which markers follow. -/
theorem Ongoing.close (h : Ongoing row) {jump : Step} (markers : List Op)
    (isJump : jump.marker.IsJump) (patches : ∀ op ∈ markers, op.IsPatch) :
    Complete (row ++ jump :: markers.map .act) where
  nop i found := by
    rw [List.getElem?_append] at found
    split at found
    · exact h.nop i found
    · rw [List.getElem?_cons] at found
      split at found
      · cases found
        exact absurd isJump (by decide)
      · rw [List.getElem?_map] at found
        obtain ⟨op, mem, same⟩ := Option.map_eq_some_iff.1 found
        cases same
        exact absurd (patches _ (List.mem_of_getElem? mem)) (by decide)
  jump i j here there found jumps lt found' := by
    have le : row.length ≤ i := by
      rw [List.getElem?_append] at found
      split at found
      · exact absurd jumps (h.jump here (List.mem_of_getElem? found))
      · omega
    rw [List.getElem?_append_right (by omega), List.getElem?_cons, if_neg (by omega),
      List.getElem?_map] at found'
    obtain ⟨op, mem, rfl⟩ := Option.map_eq_some_iff.1 found'
    exact ⟨op, rfl, patches op (List.mem_of_getElem? mem)⟩

theorem Ongoing.complete (h : Ongoing row) : Complete row where
  nop := h.nop
  jump _ _ here _ found jumps := absurd jumps (h.jump here (List.mem_of_getElem? found))

theorem ongoing_nil : Ongoing [] :=
  ⟨fun _ found => by simp at found, fun _ mem => by simp at mem⟩

theorem ongoing_landed {marker : Op} (patches : marker = .patchJumpElse ∨ marker = .patchJump) :
    Ongoing [.act .nop, .act marker] := by
  have other : marker ≠ .nop ∧ ¬ marker.IsJump := by
    rcases patches with rfl | rfl <;> exact ⟨by decide, by decide⟩
  refine ⟨fun i found => ?_, fun step mem => ?_⟩
  · match i with
    | 0 => rfl
    | 1 =>
        cases found
        exact absurd rfl other.1
    | i + 2 => simp at found
  · rcases List.mem_pair.1 mem with rfl | rfl
    · decide
    · exact other.2

theorem Ongoing.snoc (h : Ongoing row) {step : Step} (quiet : step.marker = .condensed) :
    Ongoing (row ++ [step]) where
  nop i found := by
    rw [List.getElem?_append] at found
    split at found
    · exact h.nop i found
    · obtain rfl := List.mem_singleton.1 (List.mem_of_getElem? found)
      cases quiet
  jump here mem := by
    rcases List.mem_append.1 mem with mem | mem
    · exact h.jump here mem
    · obtain rfl := List.mem_singleton.1 mem
      rw [quiet]
      decide

/-- All rows but the last are complete, and that is ongoing. -/
theorem split (h : Drawn rows) : ∃ before last, rows = before ++ [last] ∧
    (∀ row ∈ before, Complete row) ∧ Ongoing last := by
  have more {before : List (List Step)} {last next : List Step}
      (each : ∀ row ∈ before, Complete row) (complete : Complete last) (ongoing : Ongoing next) :
      ∃ before' last', before ++ [last, next] = before' ++ [last'] ∧
        (∀ row ∈ before', Complete row) ∧ Ongoing last' := by
    refine ⟨before ++ [last], next, by simp, fun row mem => ?_, ongoing⟩
    rcases List.mem_append.1 mem with mem | mem
    · exact each row mem
    · exact List.mem_singleton.1 mem ▸ complete
  have same {rows before : List (List Step)} {row last : List Step}
      (eq : rows ++ [row] = before ++ [last]) : rows = before ∧ row = last := by
    obtain ⟨rfl, last⟩ := List.append_inj' eq rfl
    exact ⟨rfl, List.singleton_inj.1 last⟩
  induction h with
  | entry => exact ⟨[], [], rfl, by simp, ongoing_nil⟩
  | step _ quiet ih =>
      obtain ⟨before, last, eq, each, ongoing⟩ := ih
      obtain ⟨rfl, rfl⟩ := same eq
      exact ⟨_, _, rfl, each, ongoing.snoc quiet⟩
  | branch a _ ih =>
      obtain ⟨before, last, eq, each, ongoing⟩ := ih
      obtain ⟨rfl, rfl⟩ := same eq
      exact more each (ongoing.close [.savePatch] (.inr rfl) (by decide)) ongoing_nil
  | land patches _ ih =>
      obtain ⟨before, last, eq, each, ongoing⟩ := ih
      obtain ⟨rfl, rfl⟩ := same eq
      exact more each ongoing.complete (ongoing_landed patches)
  | turn _ ih =>
      obtain ⟨before, last, eq, each, ongoing⟩ := ih
      obtain ⟨rfl, rfl⟩ := same eq
      exact more each (ongoing.close [.savePatch, .shufflePatch] (.inl rfl) (by decide))
        (ongoing_landed (.inl rfl))

/-- A marker stands on one side of the line between the rows before and this one. -/
def Parted (before : List (List Step)) (row : List Step) : Prop :=
  row.head? = some (.act .nop) ∨ ∃ op, before.flatten.getLast? = some (.act op)

/-- Drawing on behind a row changes nothing of the lines up to there. -/
theorem parted_extended {row' : List Step} {more : List (List Step)}
    (h : ∀ (i : Nat) (r : List Step), 0 < i → (rows ++ [row])[i]? = some r →
      Parted ((rows ++ [row]).take i) r)
    (extends' : row <+: row') {i : Nat} {r : List Step} (later : 0 < i) (le : i ≤ rows.length)
    (found : (rows ++ row' :: more)[i]? = some r) :
    Parted ((rows ++ row' :: more).take i) r := by
  have known := h i
  rw [List.take_append_of_le_length le] at known ⊢
  rcases Nat.lt_or_eq_of_le le with lt | rfl
  · rw [List.getElem?_append_left lt] at found known
    exact known r later found
  · rw [List.getElem?_concat_length] at known
    rw [List.getElem?_append_right (Nat.le_refl _), Nat.sub_self, List.getElem?_cons_zero] at found
    cases found
    refine (known row later rfl).imp_left fun head => ?_
    obtain ⟨rest, rfl⟩ := extends'
    rw [List.head?_append, head]
    rfl

/-- Another row is begun behind a marker, or with one. -/
theorem parted_begun {row' next : List Step}
    (h : ∀ (i : Nat) (r : List Step), 0 < i → (rows ++ [row])[i]? = some r →
      Parted ((rows ++ [row]).take i) r)
    (extends' : row <+: row')
    (ended : next.head? = some (.act .nop) ∨ ∃ op, row'.getLast? = some (.act op))
    {i : Nat} {r : List Step} (later : 0 < i) (found : (rows ++ [row', next])[i]? = some r) :
    Parted ((rows ++ [row', next]).take i) r := by
  rcases Nat.lt_or_ge rows.length i with beyond | le
  · have lt := (List.getElem?_eq_some_iff.1 found).1
    rw [List.length_append, List.length_cons, List.length_singleton] at lt
    obtain rfl : i = rows.length + 1 := by omega
    rw [List.getElem?_append_right (Nat.le_succ _), Nat.succ_sub (Nat.le_refl _),
      Nat.sub_self] at found
    cases found
    refine ended.imp_right fun ⟨op, ended⟩ => ⟨op, ?_⟩
    rw [List.take_append, List.take_of_length_le (Nat.le_succ _), Nat.succ_sub (Nat.le_refl _),
      Nat.sub_self, List.flatten_append, List.getLast?_append]
    simp [ended]
  · exact parted_extended h extends' later le found

theorem parted (h : Drawn rows) {i : Nat} {row : List Step} (later : 0 < i)
    (found : rows[i]? = some row) : Parted (rows.take i) row := by
  suffices all : ∀ i row, 0 < i → rows[i]? = some row → Parted (rows.take i) row from
    all i row later found
  clear later found
  induction h with
  | entry =>
      intro i row later found
      rw [List.getElem?_singleton, if_neg (Nat.ne_of_gt later)] at found
      cases found
  | step _ _ ih =>
      intro i row later found
      have lt := (List.getElem?_eq_some_iff.1 found).1
      rw [List.length_append, List.length_singleton] at lt
      exact parted_extended ih (List.prefix_append _ _) later (Nat.le_of_lt_succ lt) found
  | branch a _ ih =>
      intro i row
      exact parted_begun ih (List.prefix_append _ _) (.inr ⟨.savePatch, by simp⟩)
  | land patches _ ih =>
      intro i row
      exact parted_begun ih List.prefix_rfl (.inl rfl)
  | turn _ ih =>
      intro i row
      exact parted_begun ih (List.prefix_append _ _) (.inl rfl)

end Drawn

/-! ### Rows and their listing -/

theorem getElem?_flatten_of_row {α : Type} {rows : List (List α)} {i j : Nat} {row : List α}
    (found : rows[i]? = some row) (lt : j < row.length) :
    rows.flatten[(rows.take i).flatten.length + j]? = row[j]? := by
  obtain ⟨inside, rfl⟩ := List.getElem?_eq_some_iff.1 found
  have split : rows.flatten =
      (rows.take i).flatten ++ (rows[i] ++ (rows.drop (i + 1)).flatten) := by
    rw [← List.flatten_cons, ← List.flatten_append, List.getElem_cons_drop, List.take_append_drop]
  rw [split, List.getElem?_append_right (Nat.le_add_right _ _), Nat.add_sub_cancel_left,
    List.getElem?_append_left lt]

theorem Drawn.complete {rows : List (List Step)} (h : Drawn rows) {row : List Step}
    (mem : row ∈ rows) : Complete row := by
  obtain ⟨before, last, eq, each, ongoing⟩ := h.split
  rw [eq] at mem
  rcases List.mem_append.1 mem with mem | mem
  · exact each row mem
  · exact List.mem_singleton.1 mem ▸ ongoing.complete

/-- The rows of an orderly graph are straight. -/
theorem Drawn.straight {g : Graph} {pool functions procedures : Nat} (h : Drawn g.rows)
    (orderly : g.listing.Orderly pool functions procedures) : ∀ row ∈ g.rows, Straight row := by
  intro row mem
  have complete := h.complete mem
  refine ⟨complete.nop, fun i j here there found isJump lt found' => ?_,
    fun j step n found window => ?_⟩
  · obtain ⟨op, rfl, -⟩ := complete.jump i j here there found isJump lt found'
    exact ⟨op, rfl⟩
  obtain ⟨i, at_⟩ := List.mem_iff_getElem?.1 mem
  have lt := (List.getElem?_eq_some_iff.1 found).1
  generalize offset : (g.rows.take i).flatten.length = start
  have position : ∀ k, k < row.length → g.listing.steps[start + k]? = row[k]? := by
    intro k lt
    rw [← offset]
    show g.steps[_]? = _
    rw [g.steps_eq_flatten]
    exact getElem?_flatten_of_row at_ lt
  obtain ⟨-, le, copies, -⟩ :=
    orderly.window (start + j) step n ((position j lt).trans found) window
  -- A window that began in a row before would go on over a marker.
  refine Nat.not_lt.1 fun beyond => ?_
  have later : 0 < i := by
    refine Nat.pos_of_ne_zero fun first => ?_
    subst first
    have none : start = 0 := offset.symm
    omega
  rcases h.parted later at_ with head | ⟨op, last⟩
  · rw [List.head?_eq_getElem?] at head
    have here := (position 0 (Nat.zero_lt_of_lt lt)).trans head
    by_cases own : j = 0
    · subst own
      rw [head] at found
      cases found
      cases window
    · obtain ⟨t, a, copy, -⟩ := copies (start + 0) (by omega) (by omega)
      rw [here] at copy
      cases copy
  · have some : 0 < start := by
      rw [← offset]
      refine List.length_pos_of_ne_nil fun nil => ?_
      rw [nil] at last
      cases last
    have before : g.listing.steps[start - 1]? = Option.some (.act op) := by
      show g.steps[_]? = _
      rw [List.getLast?_eq_getElem?, offset] at last
      rw [g.steps_eq_flatten, ← List.take_append_drop i g.rows, List.flatten_append,
        List.getElem?_append_left (by omega)]
      exact last
    obtain ⟨t, a, copy, -⟩ := copies (start - 1) (by omega) (by omega)
    rw [before] at copy
    cases copy

end RegisterCode
