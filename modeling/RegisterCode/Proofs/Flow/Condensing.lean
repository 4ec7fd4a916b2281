import RegisterCode.Proofs.Flow.Forest
import RegisterCode.Proofs.Flow.Tallies
import Mathlib.Logic.Relation

/-!
Condensing a graph comes to a number of merges, one after the other (`Merges`). So the
condensed graph is as orderly as the one before.
-/

namespace RegisterCode

/-- One merge. -/
inductive Listing.Merges : Listing → Listing → Prop where
  | intro {l : Listing} {origin position : Nat} {middle dest : Int16} {writer w c : Step}
    (bypass : l.Bypass origin position middle dest writer)
    (rewrites : l.Rewrites origin position middle dest writer w c) :
    Merges l (l.replaced origin position w c)

theorem Listing.Orderly.merges {l l' : Listing} {pool functions procedures : Nat}
    (orderly : l.Orderly pool functions procedures)
    (merges : Relation.ReflTransGen Merges l l') : l'.Orderly pool functions procedures := by
  induction merges with
  | refl => exact orderly
  | tail _ merge ih =>
      obtain ⟨bypass, rewrites⟩ := merge
      exact ih.replaced bypass rewrites

/-! ### What a merge was found to be -/

theorem writerBefore?_spec {steps : Array Step} {a : Address} {n origin : Nat}
    (h : writerBefore? steps a n = some origin) :
    origin < n ∧ ∃ writer, steps[origin]? = some writer ∧ writer.dest? = some a := by
  induction n with
  | zero => cases h
  | succ n ih =>
      rw [writerBefore?] at h
      split at h
      · rename_i writes
        cases h
        exact ⟨Nat.lt_succ_self _, Option.bind_eq_some_iff.1 writes⟩
      · obtain ⟨lt, rest⟩ := ih h
        exact ⟨Nat.lt_succ_of_lt lt, rest⟩

/-- The two steps that a merge puts in the place of a writer and of a copy to `dest`,
when no step of `between` is in the way. -/
inductive Merge.Fits (writer : Step) (between : List Step) (dest : Address) : Merge → Prop where
  | forward {middle source : Address} (is : writer = .copy middle source)
    (steady : source.isTemp = true → ∀ step ∈ between, step.dest? ≠ some source) :
    Fits writer between dest ⟨.neutral, .copy dest source⟩
  | retarget (computes : writer.computes = true)
    (unwritten : ∀ step ∈ between, step.dest? ≠ some dest)
    (unread : ∀ step ∈ between, dest ∉ step.args) :
    Fits writer between dest ⟨writer.withDest dest, .neutral⟩

theorem merge?_spec {writer : Step} {between : Array Step} {dest : Address} {merge : Merge}
    (h : merge? writer between dest = some merge) :
    (∀ step ∈ between.toList, step.op.isCall = false) ∧ merge.Fits writer between.toList dest := by
  have none {p : Step → Bool} (h : ¬ between.any p = true) : ∀ step ∈ between.toList,
      p step = false := by
    intro step mem
    rw [← Array.any_toList, List.any_eq_true] at h
    exact Bool.eq_false_iff.2 fun holds => h ⟨step, mem, holds⟩
  unfold merge? at h
  split at h
  · cases h
  · rename_i plain
    refine ⟨none plain, ?_⟩
    have apart (free : ¬ (writes between dest || reads between dest) = true) :
        (∀ step ∈ between.toList, step.dest? ≠ some dest) ∧
          ∀ step ∈ between.toList, dest ∉ step.args := by
      rw [Bool.or_eq_true, not_or] at free
      refine ⟨fun step mem => of_decide_eq_false (none free.1 step mem), fun step mem inside => ?_⟩
      have absent := none free.2 step mem
      rw [List.contains_iff_mem.2 inside] at absent
      cases absent
    split at h
    · rename_i source
      split at h
      · cases h
      · rename_i free
        cases h
        refine .forward rfl fun temp step mem => ?_
        rw [temp, Bool.true_and] at free
        exact of_decide_eq_false (none free step mem)
    · split at h
      · cases h
      · rename_i free
        cases h
        exact .retarget rfl (apart free).1 (apart free).2
    · split at h
      · cases h
      · rename_i free
        cases h
        exact .retarget rfl (apart free).1 (apart free).2
    · cases h

/-- What is known of a merge that was found. -/
structure Mergeable (pinned : Array Bool) (steps : Array Step) (t : Tally)
    (origin position : Nat) (middle dest : Address) (writer : Step) : Prop where
  lt : origin < position
  here : steps[origin]? = some writer
  gives : writer.dest? = some middle
  copy : steps[position]? = some (.copy dest middle)
  passing : t.isPassing middle = true
  unpinned : pinned.getD origin false = false ∧ pinned.getD position false = false

theorem mergeAt?_spec {pinned : Array Bool} {steps : Array Step} {t : Tally}
    {origin position : Nat} {middle : Address} {merge : Merge}
    (h : mergeAt? pinned steps t position = some (origin, middle, merge)) :
    ∃ dest writer, Mergeable pinned steps t origin position middle dest writer ∧
      (∀ step ∈ (steps.extract (origin + 1) position).toList, step.op.isCall = false) ∧
      merge.Fits writer (steps.extract (origin + 1) position).toList dest := by
  unfold mergeAt? at h
  split at h
  · cases h
  · rename_i free
    obtain ⟨step, found, h⟩ := Option.bind_eq_some_iff.1 h
    split at h
    · rename_i dest middle'
      split at h
      · rename_i passing
        obtain ⟨origin', before, h⟩ := Option.bind_eq_some_iff.1 h
        split at h
        · cases h
        · rename_i free'
          obtain ⟨writer, here, h⟩ := Option.bind_eq_some_iff.1 h
          obtain ⟨merge', merged, h⟩ := Option.bind_eq_some_iff.1 h
          cases h
          obtain ⟨lt, writer', here', gives⟩ := writerBefore?_spec before
          rw [here] at here'
          cases here'
          exact ⟨dest, writer, ⟨lt, here, gives, found, passing, Bool.eq_false_iff.2 free',
            Bool.eq_false_iff.2 free⟩, merge?_spec merged⟩
      · cases h
    · cases h

/-! ### Merges in one row -/

/-- The windows of all calls lie among the steps. -/
def Within (steps : List Step) : Prop :=
  ∀ (j : Nat) (step : Step) (n : Nat), steps[j]? = some step → step.window? = some n → n ≤ j

theorem within_flatten {rows : List (List Step)} (h : ∀ row ∈ rows, Straight row) :
    Within rows.flatten := by
  induction rows with
  | nil => exact fun j step n found => by simp at found
  | cons row rows ih =>
      intro j step n found window
      rw [List.flatten_cons, List.getElem?_append] at found
      split at found
      · exact (h row List.mem_cons_self).window j step n found window
      · have le := ih (fun row mem => h row (List.mem_cons_of_mem _ mem)) _ step n found window
        omega

/-- The listing with a row in it. -/
def Listing.around (params : Nat) (pre row post : List Step) : Listing :=
  ⟨params, pre ++ row ++ post⟩

/-- The row of a listing that is being condensed. -/
structure Merging (pool functions procedures params : Nat) (pre post : List Step)
    (pinned : Array Bool) (row : Array Step) (t : Tally) : Prop where
  orderly : (Listing.around params pre row.toList post).Orderly pool functions procedures
  straight : Straight row.toList
  counts : t.Counts (pre ++ row.toList ++ post)
  pins : ∀ (j : Nat) (step : Step) (n i : Nat), row[j]? = some step → step.window? = some n →
    j - n ≤ i → i < j → pinned.getD i false = true

section

variable {pool functions procedures params : Nat} {pre post : List Step} {pinned : Array Bool}
  {row : Array Step} {t : Tally} {origin position i : Nat} {middle dest : Address} {writer : Step}

theorem getElem?_around (params : Nat) (pre post : List Step) (lt : i < row.size) :
    (Listing.around params pre row.toList post).steps[pre.length + i]? = row[i]? := by
  rw [Listing.around, List.append_assoc, List.getElem?_append_right (Nat.le_add_right _ _),
    Nat.add_sub_cancel_left, List.getElem?_append_left (by simpa using lt), Array.getElem?_toList]

/-- Replacing two steps of the row replaces them in the listing. -/
theorem around_replaced {w c : Step} (lt : origin < row.size) (lt' : position < row.size) :
    Listing.around params pre
        ((row.setIfInBounds position c).setIfInBounds origin w).toList post =
      (Listing.around params pre row.toList post).replaced (pre.length + origin)
        (pre.length + position) w c := by
  have set (steps : List Step) (i : Nat) (x : Step) (lt : i < steps.length) :
      (pre ++ steps ++ post).set (pre.length + i) x = pre ++ steps.set i x ++ post := by
    rw [List.append_assoc, List.set_append_right _ _ (Nat.le_add_right _ _),
      Nat.add_sub_cancel_left,
      List.set_append_left _ _ lt, List.append_assoc]
  rw [Listing.around, Listing.around, Listing.replaced, set _ _ _ (by simpa using lt'),
    set _ _ _ (by simpa using lt), Array.toList_setIfInBounds, Array.toList_setIfInBounds]

namespace Mergeable

theorem inside (m : Mergeable pinned row t origin position middle dest writer) :
    origin < row.size ∧ position < row.size :=
  ⟨(Array.getElem?_eq_some_iff.1 m.here).1, (Array.getElem?_eq_some_iff.1 m.copy).1⟩

/-- The steps between the two are those of the row. -/
theorem between (m : Mergeable pinned row t origin position middle dest writer) {q : Nat}
    {step : Step} (low : pre.length + origin < q) (high : q < pre.length + position)
    (found : (Listing.around params pre row.toList post).steps[q]? = some step) :
    ∃ i, origin < i ∧ i < position ∧ row[i]? = some step ∧
      step ∈ (row.extract (origin + 1) position).toList := by
  obtain ⟨i, rfl⟩ : ∃ i, q = pre.length + i := ⟨q - pre.length, by omega⟩
  have inside := m.inside
  rw [getElem?_around _ _ _ (by omega)] at found
  refine ⟨i, by omega, by omega, found, ?_⟩
  obtain ⟨lt, rfl⟩ := Array.getElem?_eq_some_iff.1 found
  refine Array.mem_toList_iff.2 (Array.mem_extract_iff_getElem.2 ⟨i - (origin + 1), by omega, ?_⟩)
  congr 1
  omega

/-- A merge that was found bypasses a temporary. -/
theorem bypass (behind : Within post)
    (h : Merging pool functions procedures params pre post pinned row t)
    (m : Mergeable pinned row t origin position middle dest writer)
    (plain : ∀ step ∈ (row.extract (origin + 1) position).toList, step.op.isCall = false) :
    middle = .temp middle.id ∧ dest = .temp dest.id ∧
      (Listing.around params pre row.toList post).Bypass (pre.length + origin)
        (pre.length + position) middle.id dest.id writer := by
  have inside := m.inside
  have here := (getElem?_around params pre post inside.1).trans m.here
  have copy := (getElem?_around params pre post inside.2).trans m.copy
  obtain ⟨temp, read, written⟩ := h.counts.passing m.passing
  have temp' : dest = .temp dest.id := by
    cases h.orderly.legal _ _ copy
    rfl
  have gives : writer.dest? = some (.temp middle.id) := temp ▸ m.gives
  have written : ∀ q, (Listing.around params pre row.toList post).writes? q = some middle.id →
      q = pre.length + origin := by
    intro q writes
    obtain ⟨step, found, dest⟩ := Listing.writes?_eq_some writes
    obtain ⟨a, dest, same⟩ := Option.map_eq_some_iff.1 dest
    have isTemp : a = .temp a.id := by
      cases h.orderly.legal _ _ found <;> first | cases dest; rfl | cases dest
    rw [same, ← temp] at isTemp
    exact unique_of_count_flatMap written found
      (by rw [dest, isTemp]; exact List.mem_singleton_self _)
      here (by rw [m.gives]; exact List.mem_singleton_self _)
  refine ⟨temp, temp', Nat.add_lt_add_left m.lt _, here, gives, ?_, written, ?_, ?_, ?_⟩
  · rw [← temp, ← temp']
    exact copy
  · intro q step found mem
    rw [← temp] at mem
    exact unique_of_count_flatMap read found mem copy (List.mem_singleton_self _)
  · intro q step low high found
    obtain ⟨i, low, high, found, mem⟩ := m.between low high found
    rw [← Array.getElem?_toList] at found
    have copy := m.copy
    rw [← Array.getElem?_toList] at copy
    refine ⟨plain step mem, fun jump => ?_, ?_⟩
    · obtain ⟨op, same⟩ := h.straight.jump i position step _ found jump high copy
      cases same
    · rintro rfl
      have first := h.straight.nop i found
      omega
  · intro k step n i found window low high
    have apart : i < pre.length ∨ pre.length + row.size ≤ i ∨
        (pre.length ≤ i ∧ pinned.getD (i - pre.length) false = true) := by
      rw [Listing.around, List.append_assoc, List.getElem?_append] at found
      split at found
      · omega
      · rw [List.getElem?_append] at found
        split at found
        · rename_i late lt
          rw [Array.getElem?_toList] at found
          have le := h.straight.window (k - pre.length) step n
            (by rwa [Array.getElem?_toList]) window
          refine .inr (.inr ⟨by omega, ?_⟩)
          exact h.pins (k - pre.length) step n _ found window (by omega) (by omega)
        · rename_i late later
          have le := behind _ step n found window
          have size : row.toList.length = row.size := Array.length_toList
          omega
    rcases apart with lt | le | ⟨le, pin⟩
    · omega
    · omega
    · refine ⟨?_, ?_⟩
      · rintro rfl
        rw [Nat.add_sub_cancel_left, m.unpinned.1] at pin
        cases pin
      · rintro rfl
        rw [Nat.add_sub_cancel_left, m.unpinned.2] at pin
        cases pin

/-- The two steps that take their places. -/
theorem rewrites (h : Merging pool functions procedures params pre post pinned row t)
    (m : Mergeable pinned row t origin position middle dest writer) {merge : Merge}
    (fits : merge.Fits writer (row.extract (origin + 1) position).toList dest)
    (temp : middle = .temp middle.id) (temp' : dest = .temp dest.id) :
    (Listing.around params pre row.toList post).Rewrites (pre.length + origin)
      (pre.length + position) middle.id dest.id writer merge.writer merge.copy := by
  have unwritten {t : Int16} (never : ∀ step ∈ (row.extract (origin + 1) position).toList,
      step.dest? ≠ some (.temp t)) (q : Nat) (low : pre.length + origin < q)
      (high : q < pre.length + position) :
      (Listing.around params pre row.toList post).writes? q ≠ some t := by
    intro writes
    obtain ⟨step, found, dest⟩ := Listing.writes?_eq_some writes
    obtain ⟨a, dest, rfl⟩ := Option.map_eq_some_iff.1 dest
    have legal := h.orderly.legal _ _ found
    obtain ⟨i, -, -, -, mem⟩ := m.between low high found
    refine never step mem ?_
    cases legal <;> first | cases dest; rfl | cases dest
  cases fits with
  | @forward middle' source is steady =>
      obtain rfl : middle' = middle := by
        have gives := m.gives
        rw [is] at gives
        exact Option.some.inj gives
      rw [temp'] at *
      refine .forward (temp ▸ is) fun q t isTemp low high =>
        unwritten (fun step mem => ?_) q low high
      unfold Address.temp? at isTemp
      split at isTemp
      · rename_i space
        cases isTemp
        have same : source = .temp source.id := by
          obtain ⟨_, id⟩ := source
          cases of_decide_eq_true space
          rfl
        rw [← same]
        exact steady space step mem
      · cases isTemp
  | retarget computes never unread =>
      rw [temp'] at *
      exact .retarget computes (unwritten never) fun q step low high found => by
        obtain ⟨i, -, -, -, mem⟩ := m.between low high found
        exact unread step mem

/-- The row stays a straight line. -/
theorem straight (m : Mergeable pinned row t origin position middle dest writer)
    (h : Straight row.toList) {w c : Step}
    (windows : w.window? = none ∧ c.window? = none)
    (quiet : w.marker = .condensed ∧ c.marker = .condensed ∧ writer.marker = .condensed) :
    Straight ((row.setIfInBounds position c).setIfInBounds origin w).toList := by
  have here : row.toList[origin]? = some writer := m.here ▸ Array.getElem?_toList
  have copy : row.toList[position]? = some (.copy dest middle) := m.copy ▸ Array.getElem?_toList
  have cases {i : Nat} {step : Step}
      (found : ((row.setIfInBounds position c).setIfInBounds origin w).toList[i]? = some step) :
      (step = w ∧ i = origin) ∨ (step = c ∧ i = position) ∨ row.toList[i]? = some step := by
    rw [Array.toList_setIfInBounds, Array.toList_setIfInBounds, List.getElem?_set] at found
    split at found
    · split at found <;> cases found
      exact .inl ⟨rfl, Eq.symm ‹_›⟩
    · rw [List.getElem?_set] at found
      split at found
      · split at found <;> cases found
        exact .inr (.inl ⟨rfl, Eq.symm ‹_›⟩)
      · exact .inr (.inr found)
  refine ⟨fun i found => ?_, fun i j here' there found jump lt found' => ?_,
    fun j step n found window => ?_⟩
  · rcases cases found with ⟨rfl, -⟩ | ⟨rfl, -⟩ | found
    · cases quiet.1
    · cases quiet.2.1
    · exact h.nop i found
  · have before : row.toList[i]? = some here' := by
      rcases cases found with ⟨rfl, -⟩ | ⟨rfl, -⟩ | found
      · rw [quiet.1] at jump
        exact absurd jump (by decide)
      · rw [quiet.2.1] at jump
        exact absurd jump (by decide)
      · exact found
    rcases cases found' with ⟨-, rfl⟩ | ⟨-, rfl⟩ | found'
    · obtain ⟨op, rfl⟩ := h.jump i j here' writer before jump lt here
      cases m.gives
    · obtain ⟨op, same⟩ := h.jump i j here' _ before jump lt copy
      cases same
    · exact h.jump i j here' there before jump lt found'
  · rcases cases found with ⟨rfl, -⟩ | ⟨rfl, -⟩ | found
    · rw [windows.1] at window
      cases window
    · rw [windows.2] at window
      cases window
    · exact h.window j step n found window

end Mergeable

/-- One step of condensing a row is a merge, or none. -/
theorem Merging.mergeAt (behind : Within post)
    (h : Merging pool functions procedures params pre post pinned row t) (position : Nat) :
    let next := RegisterCode.mergeAt pinned (row, t) position
    Merging pool functions procedures params pre post pinned next.1 next.2 ∧
      next.1.size = row.size ∧
      Relation.ReflTransGen Listing.Merges (.around params pre row.toList post)
        (.around params pre next.1.toList post) := by
  intro next
  cases found : mergeAt? pinned row t position with
  | none =>
      have stays : next = (row, t) := by
        show RegisterCode.mergeAt _ _ _ = _
        rw [RegisterCode.mergeAt, found]
      rw [stays]
      exact ⟨h, rfl, .refl⟩
  | some site =>
      obtain ⟨origin, middle, merge⟩ := site
      obtain ⟨dest, writer, m, plain, fits⟩ := mergeAt?_spec found
      obtain ⟨temp, temp', bypass⟩ := m.bypass behind h plain
      have rewrites := m.rewrites h fits temp temp'
      have moves : next = ((row.setIfInBounds position merge.copy).setIfInBounds origin
          merge.writer, t.bypass middle) := by
        show RegisterCode.mergeAt _ _ _ = _
        rw [RegisterCode.mergeAt, found]
      have listing : Listing.around params pre _ post = _ :=
        around_replaced (w := merge.writer) (c := merge.copy) m.inside.1 m.inside.2
      have windows := rewrites.window_none
      have straight := m.straight h.straight windows rewrites.marker
      rw [moves]
      refine ⟨⟨?_, straight, ?_, fun j step n i found window low high => ?_⟩, ?_, ?_⟩
      · rw [listing]
        exact h.orderly.replaced bypass rewrites
      · rw [temp]
        have counts := Listing.counts_bypass bypass rewrites h.counts
        rw [← listing] at counts
        exact counts
      · refine h.pins j step n i ?_ window low high
        rw [Array.getElem?_setIfInBounds] at found
        split at found
        · split at found <;> cases found
          rw [windows.1] at window
          cases window
        · rw [Array.getElem?_setIfInBounds] at found
          split at found
          · split at found <;> cases found
            rw [windows.2] at window
            cases window
          · exact found
      · simp
      · rw [listing]
        exact .single (.intro bypass rewrites)

/-- Condensing a row comes to a number of merges. -/
theorem Merging.condenseSteps (behind : Within post)
    (orderly : (Listing.around params pre row.toList post).Orderly pool functions procedures)
    (straight : Straight row.toList) (counts : t.Counts (pre ++ row.toList ++ post)) :
    let next := RegisterCode.condenseSteps row t
    Straight next.1.toList ∧ next.2.Counts (pre ++ next.1.toList ++ post) ∧
      Relation.ReflTransGen Listing.Merges (.around params pre row.toList post)
        (.around params pre next.1.toList post) := by
  have pins : ∀ (j : Nat) (step : Step) (n i : Nat), row[j]? = some step →
      step.window? = some n → j - n ≤ i → i < j → (argumentCopies row).getD i false = true := by
    intro j step n i found window low lt
    have inside := (Array.getElem?_eq_some_iff.1 found).1
    have le := straight.window j step n (by rwa [Array.getElem?_toList]) window
    obtain ⟨-, -, copies, -⟩ := orderly.window (pre.length + j) step n
      ((getElem?_around params pre post inside).trans found) window
    obtain ⟨temp, a, copy, -⟩ := copies (pre.length + i) (by omega) (by omega)
    rw [getElem?_around params pre post (by omega)] at copy
    exact argumentCopies_of_window found window low lt copy rfl
  have start : Merging pool functions procedures params pre post (argumentCopies row) row t :=
    ⟨orderly, straight, counts, pins⟩
  suffices all : ∀ (positions : List Nat) (row' : Array Step) (t' : Tally),
      Merging pool functions procedures params pre post (argumentCopies row) row' t' →
      let next := positions.foldl (RegisterCode.mergeAt (argumentCopies row)) (row', t')
      Merging pool functions procedures params pre post (argumentCopies row) next.1 next.2 ∧
        Relation.ReflTransGen Listing.Merges (.around params pre row'.toList post)
          (.around params pre next.1.toList post) by
    obtain ⟨merging, merges⟩ := all (List.range row.size) row t start
    exact ⟨merging.straight, merging.counts, merges⟩
  intro positions
  induction positions with
  | nil => exact fun row' t' h => ⟨h, .refl⟩
  | cons position positions ih =>
      intro row' t' h
      obtain ⟨h', -, merges⟩ := h.mergeAt behind position
      obtain ⟨merging, rest⟩ := ih _ _ h'
      exact ⟨merging, merges.trans rest⟩

end

/-! ### Whole graphs -/

namespace Graph

variable {g g' : Graph} {t : Tally} {id pool functions procedures : Nat} {b : Block}

/-- The row of one block in the listing of its graph. -/
theorem listing_eq_around (found : g.blocks[id]? = some b) :
    g.listing = .around g.paramCount.toNat (g.rows.take id).flatten b.steps.toList
      (g.rows.drop (id + 1)).flatten := by
  have row : g.rows[id]? = some b.steps.toList := by
    rw [rows, List.getElem?_map, Array.getElem?_toList, found]
    rfl
  obtain ⟨lt, row⟩ := List.getElem?_eq_some_iff.1 row
  rw [listing, Listing.around, steps_eq_flatten, List.append_assoc, ← List.flatten_cons,
    ← List.flatten_append, ← row, List.getElem_cons_drop, List.take_append_drop]

theorem rows_setSteps (steps : Array Step) :
    Graph.rows { g with blocks := g.blocks.setIfInBounds id { b with steps := steps } } =
      g.rows.set id steps.toList := by
  rw [rows, rows, Array.toList_setIfInBounds, List.map_set]

/-- Whether a graph is forward depends on its edges only. -/
theorem Forward.congr (h : g.Forward)
    (same : g'.blocks.map Block.successors = g.blocks.map Block.successors) : g'.Forward := by
  have size : g'.blocks.size = g.blocks.size := by
    have sizes := congrArg Array.size same
    rwa [Array.size_map, Array.size_map] at sizes
  have edges {g g' : Graph} (same : g'.blocks.map Block.successors = g.blocks.map Block.successors)
      {id : Nat} {b : Block} (found : g'.blocks[id]? = some b) :
      ∃ b', g.blocks[id]? = some b' ∧ b'.successors = b.successors := by
    have there := congrArg (fun blocks : Array (List BlockId) => blocks[id]?) same
    rw [Array.getElem?_map, Array.getElem?_map, found] at there
    exact Option.map_eq_some_iff.1 there.symm
  refine ⟨size ▸ h.entry, fun id b found s mem => ?_, fun id later lt => ?_⟩
  · obtain ⟨b', found', same⟩ := edges same found
    rw [size]
    exact h.ahead id b' found' s (same ▸ mem)
  · obtain ⟨before, lt', b', found', mem⟩ := h.entered id later (size ▸ lt)
    obtain ⟨b, found, same⟩ := edges same.symm found'
    exact ⟨before, lt', b, found, same ▸ mem⟩

theorem Forward.isCondensable (h : g.Forward) : g.isCondensable = true := by
  rw [Graph.isCondensable, Bool.and_eq_true]
  refine ⟨?_, Array.all_eq_true.2 fun id lt => List.all_eq_true.2 fun s mem => ?_⟩
  · have entry := h.entry
    rw [Bool.not_eq_true', Array.isEmpty_eq_false_iff, Ne, ← Array.size_eq_zero_iff]
    omega
  · exact decide_eq_true (h.ahead id _ (Array.getElem?_eq_getElem lt) s mem).2

/-! ### The pass from block to block -/

theorem mem_depthFirst {waiting : List Nat} {seen : Array Bool} {order : Array Nat} {P : Nat → Prop}
    (step : ∀ id, P id → ∀ s ∈ g.successors id, P s) (waits : ∀ id ∈ waiting, P id)
    (visited : ∀ id ∈ order, P id) : ∀ id ∈ g.depthFirst n waiting seen order, P id := by
  induction n generalizing waiting seen order with
  | zero => exact visited
  | succ n ih =>
      cases waiting with
      | nil => exact visited
      | cons id waiting =>
          have here := waits id List.mem_cons_self
          have rest : ∀ id ∈ waiting, P id := fun id mem => waits id (List.mem_cons_of_mem _ mem)
          rw [depthFirst]
          split
          · exact ih rest visited
          · refine ih (fun s mem => ?_) fun id' mem => ?_
            · rcases List.mem_append.1 mem with mem | mem
              · exact step id here s (List.mem_filter.1 (List.mem_reverse.1 mem)).1
              · exact rest s mem
            · rcases Array.mem_push.1 mem with mem | rfl
              · exact visited id' mem
              · exact here

/-- In a graph whose edges all lead to blocks, the pass comes to no other place. -/
theorem lt_of_mem_reachable (condensable : g.isCondensable = true) (mem : id ∈ g.reachable) :
    id < g.blocks.size := by
  rw [isCondensable, Bool.and_eq_true, Bool.not_eq_true', Array.isEmpty_eq_false_iff,
    edgesInside, Array.all_eq_true] at condensable
  obtain ⟨some, inside⟩ := condensable
  refine mem_depthFirst (P := (· < g.blocks.size)) (fun id lt s follows => ?_) (fun id first => ?_)
    (by simp) id mem
  · rw [successors, Array.getElem?_eq_getElem lt] at follows
    exact of_decide_eq_true (List.all_eq_true.1 (inside id lt) s follows)
  · rw [List.mem_singleton] at first
    rw [first, Array.size_pos_iff]
    exact some

/-- A block that is there is not refused. -/
theorem exists_condenseBlock {state : Graph × Tally} (lt : id < state.1.blocks.size) :
    ∃ state', condenseBlock state id = some state' ∧
      state'.1.blocks.size = state.1.blocks.size := by
  rw [condenseBlock, Array.getElem?_eq_getElem lt]
  exact ⟨_, rfl, Array.size_setIfInBounds⟩

theorem exists_foldlM_condenseBlock (ids : List BlockId) (state : Graph × Tally)
    (inside : ∀ id ∈ ids, id < state.1.blocks.size) :
    ∃ state', ids.foldlM condenseBlock state = some state' := by
  induction ids generalizing state with
  | nil => exact ⟨state, rfl⟩
  | cons id ids ih =>
      obtain ⟨next, condensed, size⟩ := exists_condenseBlock (inside id List.mem_cons_self)
      rw [List.foldlM_cons, condensed]
      exact ih next fun id' mem => by
        rw [size]
        exact inside id' (List.mem_cons_of_mem _ mem)

/-- What holds at the start, and after each block if it held before, holds after the pass. -/
theorem foldlM_condenseBlock_induction {ids : List BlockId} {state last : Graph × Tally}
    {P : List BlockId → Graph × Tally → Prop} (start : P [] state)
    (step : ∀ done id next next', id ∈ ids → P done next → condenseBlock next id = some next' →
      P (done ++ [id]) next')
    (run : ids.foldlM condenseBlock state = some last) : P ids last := by
  induction ids generalizing state P with
  | nil =>
      cases run
      exact start
  | cons id ids ih =>
      rw [List.foldlM_cons] at run
      cases condensed : condenseBlock state id with
      | none =>
          rw [condensed] at run
          cases run
      | some next =>
          rw [condensed] at run
          refine ih (P := fun done => P (id :: done))
            (step [] id _ _ List.mem_cons_self start condensed)
            (fun done id' before after mem => ?_) run
          exact step (id :: done) id' before after (List.mem_cons_of_mem _ mem)

theorem condense?_eq_some_iff {n : Nat} : g.condense? = some (g', n) ↔
    g.isCondensable = true ∧ ∃ t, n = t.bypassed ∧
      g.reachable.toList.foldlM condenseBlock (g, .ofGraph g) = some (g', t) := by
  rw [condense?, ← Array.foldlM_toList]
  cases g.isCondensable with
  | false => simp
  | true =>
      cases g.reachable.toList.foldlM condenseBlock (g, .ofGraph g) with
      | none => simp
      | some last =>
          constructor
          · intro same
            cases same
            exact ⟨rfl, _, rfl, rfl⟩
          · rintro ⟨-, _, rfl, same⟩
            cases same
            rfl

/-- The pass comes to no block that is missing, so what is refused is refused before. -/
theorem exists_condense? (condensable : g.isCondensable = true) :
    ∃ g' n, g.condense? = some (g', n) := by
  obtain ⟨last, run⟩ := exists_foldlM_condenseBlock g.reachable.toList (g, .ofGraph g)
    fun id mem => lt_of_mem_reachable condensable (Array.mem_toList_iff.1 mem)
  exact ⟨last.1, last.2.bypassed, condense?_eq_some_iff.2 ⟨condensable, _, rfl, run⟩⟩

/-- A graph that blocks were condensed in, with the tally that goes with it. -/
structure Progressed (pool functions procedures : Nat) (g : Graph) (state : Graph × Tally) :
    Prop where
  edges : state.1.blocks.map Block.successors = g.blocks.map Block.successors
  orderly : state.1.listing.Orderly pool functions procedures
  straight : ∀ row ∈ state.1.rows, Straight row
  counts : state.2.Counts state.1.steps
  merges : Relation.ReflTransGen Listing.Merges g.listing state.1.listing

theorem Progressed.condenseBlock {state state' : Graph × Tally}
    (h : Progressed pool functions procedures g state)
    (condenses : Graph.condenseBlock state id = some state') :
    Progressed pool functions procedures g state' := by
  obtain ⟨g1, t⟩ := state
  obtain ⟨edges, orderly, straight, counts, merges⟩ := h
  dsimp only at edges orderly straight counts merges
  cases found : g1.blocks[id]? with
  | none =>
      rw [Graph.condenseBlock, found] at condenses
      cases condenses
  | some b =>
      have lt := (Array.getElem?_eq_some_iff.1 found).1
      have around := listing_eq_around found
      have mem : b.steps.toList ∈ g1.rows :=
        List.mem_map_of_mem (Array.mem_toList_iff.2 (Array.mem_of_getElem? found))
      have behind : Within (g1.rows.drop (id + 1)).flatten :=
        within_flatten fun row mem => straight row (List.mem_of_mem_drop mem)
      have all : g1.steps = (g1.rows.take id).flatten ++ b.steps.toList ++
          (g1.rows.drop (id + 1)).flatten := congrArg Listing.steps around
      rw [around] at orderly merges
      rw [all] at counts
      obtain ⟨straight', counts', merges'⟩ :=
        Merging.condenseSteps behind orderly (straight _ mem) counts
      cases condensed : RegisterCode.condenseSteps b.steps t with
      | mk steps t' =>
      rw [condensed] at straight' counts' merges'
      generalize is : ({ g1 with
        blocks := g1.blocks.setIfInBounds id { b with steps := steps } } : Graph) = g2
      obtain rfl : (g2, t') = state' := by
        simpa only [Graph.condenseBlock, found, condensed, is, Option.some.injEq] using condenses
      have rows : g2.rows = g1.rows.set id steps.toList := is ▸ rows_setSteps steps
      have found' : g2.blocks[id]? = some { b with steps := steps } := by
        rw [← is]
        exact Array.getElem?_setIfInBounds_self_of_lt lt
      have around' := listing_eq_around found'
      rw [rows, List.take_set_of_le (Nat.le_refl _), List.drop_set_of_lt (Nat.lt_succ_self _)]
        at around'
      have params : g2.paramCount = g1.paramCount := is ▸ rfl
      rw [params] at around'
      have all' : g2.steps = _ := congrArg Listing.steps around'
      refine ⟨?_, ?_, fun row mem' => ?_, ?_, ?_⟩
      · show g2.blocks.map Block.successors = _
        rw [← is, ← edges]
        refine Array.ext_getElem? fun i => ?_
        rw [Array.getElem?_map, Array.getElem?_map, Array.getElem?_setIfInBounds]
        split
        · rename_i same
          subst same
          rw [found]
          rfl
        · rfl
      · show g2.listing.Orderly pool functions procedures
        rw [around']
        exact orderly.merges merges'
      · have mem' : row ∈ g2.rows := mem'
        rw [rows] at mem'
        rcases List.mem_or_eq_of_mem_set mem' with mem' | rfl
        · exact straight row mem'
        · exact straight'
      · show t'.Counts g2.steps
        rw [all']
        exact counts'
      · show Relation.ReflTransGen Listing.Merges g.listing g2.listing
        rw [around']
        exact merges.trans merges'

/-- A forward graph as it is drawn can be condensed, and that comes to a number of
merges. -/
theorem condense?_spec (forward : g.Forward) (drawn : Drawn g.rows)
    (orderly : g.listing.Orderly pool functions procedures) :
    ∃ g' n, g.condense? = some (g', n) ∧ g'.Forward ∧
      g'.listing.Orderly pool functions procedures ∧ (∀ row ∈ g'.rows, Straight row) ∧
      Relation.ReflTransGen Listing.Merges g.listing g'.listing := by
  have start : Progressed pool functions procedures g (g, Tally.ofGraph g) :=
    ⟨rfl, orderly, drawn.straight orderly, Tally.counts_ofGraph g, .refl⟩
  obtain ⟨g', n, condensed⟩ := exists_condense? forward.isCondensable
  obtain ⟨-, t, -, run⟩ := condense?_eq_some_iff.1 condensed
  have reached : Progressed pool functions procedures g (g', t) :=
    foldlM_condenseBlock_induction (P := fun _ => Progressed pool functions procedures g) start
      (fun _ _ _ _ _ progressed => progressed.condenseBlock) run
  exact ⟨g', n, condensed, forward.congr reached.edges, reached.orderly, reached.straight,
    reached.merges⟩

end Graph

namespace Bundle

/-- What condensing makes of a bundle of graphs as they are drawn: each of them is
condensed, and the bundle stays orderly. -/
structure Merged (b b' : Bundle) (procedures : Nat) : Prop extends b'.Orderly procedures where
  constants : b'.constants = b.constants
  main : b'.main = b.main
  size : b'.graphs.size = b.graphs.size
  straight : ∀ g ∈ b'.graphs, ∀ row ∈ g.rows, Straight row
  graphs : ∀ (f : Nat) (g : Graph), b.graphs[f]? = some g → ∃ g', b'.graphs[f]? = some g' ∧
    Relation.ReflTransGen Listing.Merges g.listing g'.listing

theorem Compiled.condense {b : Bundle} {procedures : Nat} (h : b.Compiled procedures) :
    b.condense.complete = true ∧ b.Merged b.condense.bundle procedures := by
  have each : ∀ g ∈ b.graphs, ∃ g' n, g.condense? = some (g', n) ∧ g'.Forward ∧
      g'.listing.Orderly b.constants.size b.graphs.size procedures ∧
      (∀ row ∈ g'.rows, Straight row) ∧
      Relation.ReflTransGen Listing.Merges g.listing g'.listing := fun g mem =>
    Graph.condense?_spec (h.forward g mem) (h.drawn g mem) (h.orderly g mem)
  have graphs : b.condense.bundle.graphs =
      b.graphs.map fun g => (g.condense?.map Prod.fst).getD g := by
    rw [Bundle.condense]
    simp
  have size : b.condense.bundle.graphs.size = b.graphs.size := by
    rw [graphs, Array.size_map]
  have condensed : ∀ g ∈ b.condense.bundle.graphs, g.Forward ∧
      g.listing.Orderly b.constants.size b.graphs.size procedures ∧
      ∀ row ∈ g.rows, Straight row := by
    intro g mem
    rw [graphs] at mem
    obtain ⟨g0, mem0, rfl⟩ := Array.mem_map.1 mem
    obtain ⟨g', n, same, forward, orderly, straight, -⟩ := each g0 mem0
    rw [same]
    exact ⟨forward, orderly, straight⟩
  refine ⟨?_, ⟨⟨fun g mem => (condensed g mem).1, fun g mem => ?_⟩, rfl, rfl, size,
    fun g mem => (condensed g mem).2.2, fun f g found => ?_⟩⟩
  · rw [Bundle.condense, Array.all_map, Array.all_eq_true]
    intro f lt
    obtain ⟨g', n, same, -⟩ := each b.graphs[f] (Array.getElem_mem lt)
    show (b.graphs[f].condense?).isSome = true
    rw [same]
    rfl
  · rw [size]
    exact (condensed g mem).2.1
  · obtain ⟨g', n, same, -, -, -, merges⟩ := each g (Array.mem_of_getElem? found)
    refine ⟨g', ?_, merges⟩
    rw [graphs, Array.getElem?_map, found, Option.map_some, same]
    rfl

end Bundle

end RegisterCode
