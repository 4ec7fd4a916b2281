import RegisterCode.Proofs.Flow.Merging

/-!
What condensing relies on: its tallies count the reads and the writes of each
temporary, and its marks cover the windows of all calls in a row.
-/

namespace RegisterCode

/-! ### Tallies -/

/-- How often an address is read. -/
def readCount (steps : List Step) (a : Address) : Nat := (steps.flatMap Step.args).count a

/-- How often an address is written. -/
def writeCount (steps : List Step) (a : Address) : Nat :=
  (steps.flatMap fun step => step.dest?.toList).count a

namespace Tally

variable {t : Tally} {id : Int16}

theorem getD_bump (counts : Std.HashMap Int16 Nat) (a : Address) (id : Int16) :
    (if a.isTemp then bump counts a.id else counts).getD id 0 =
      counts.getD id 0 + [a].count (.temp id) := by
  obtain ⟨space, n⟩ := a
  by_cases temp : space = .temp
  · subst temp
    have isTemp : Address.isTemp ⟨.temp, n⟩ = true := rfl
    rw [if_pos isTemp, bump, Std.HashMap.getD_insert, List.count_singleton]
    by_cases same : n = id
    · subst same
      simp [Address.temp]
    · simp [Address.temp, same]
  · rw [if_neg (by simpa [Address.isTemp] using temp), List.count_singleton, if_neg]
    · rfl
    · simpa [Address.temp] using fun same => absurd same temp

theorem reads_foldl_countRead (as : List Address) :
    (as.foldl countRead t).reads.getD id 0 = t.reads.getD id 0 + as.count (.temp id) ∧
      (as.foldl countRead t).writes = t.writes := by
  induction as generalizing t with
  | nil => exact ⟨rfl, rfl⟩
  | cons a as ih =>
      have one : (t.countRead a).reads = if a.isTemp then bump t.reads a.id else t.reads := by
        rw [countRead]
        split <;> rfl
      have other : (t.countRead a).writes = t.writes := by
        rw [countRead]
        split <;> rfl
      obtain ⟨reads, writes⟩ := @ih (t.countRead a)
      refine ⟨?_, writes.trans other⟩
      rw [List.foldl_cons, reads, one, getD_bump, Nat.add_assoc, ← List.count_append]
      rfl

theorem writes_foldl_countWrite (as : List Address) :
    (as.foldl countWrite t).writes.getD id 0 = t.writes.getD id 0 + as.count (.temp id) ∧
      (as.foldl countWrite t).reads = t.reads := by
  induction as generalizing t with
  | nil => exact ⟨rfl, rfl⟩
  | cons a as ih =>
      have one : (t.countWrite a).writes = if a.isTemp then bump t.writes a.id else t.writes := by
        rw [countWrite]
        split <;> rfl
      have other : (t.countWrite a).reads = t.reads := by
        rw [countWrite]
        split <;> rfl
      obtain ⟨writes, reads⟩ := @ih (t.countWrite a)
      refine ⟨?_, reads.trans other⟩
      rw [List.foldl_cons, writes, one, getD_bump, Nat.add_assoc, ← List.count_append]
      rfl

theorem foldl_countStep (steps : List Step) :
    (steps.foldl countStep t).reads.getD id 0 = t.reads.getD id 0 + readCount steps (.temp id) ∧
      (steps.foldl countStep t).writes.getD id 0 =
        t.writes.getD id 0 + writeCount steps (.temp id) := by
  induction steps generalizing t with
  | nil => exact ⟨rfl, rfl⟩
  | cons step steps ih =>
      obtain ⟨reads, writes⟩ := @ih (t.countStep step)
      have read := @reads_foldl_countRead t id step.args
      have written := @writes_foldl_countWrite (step.args.foldl countRead t) id
        step.dest?.toList
      rw [List.foldl_cons, reads, writes, countStep, written.2, read.1, written.1, read.2,
        readCount, writeCount, readCount, writeCount, List.flatMap_cons, List.flatMap_cons,
        List.count_append, List.count_append]
      omega

/-- The tally counts the reads and writes of the temporaries it has. -/
structure Counts (t : Tally) (steps : List Step) : Prop where
  reads : ∀ id n, t.reads[id]? = some n → n = readCount steps (.temp id)
  writes : ∀ id n, t.writes[id]? = some n → n = writeCount steps (.temp id)

theorem ofGraph_eq_foldl (g : Graph) : ofGraph g = g.steps.foldl countStep ⟨∅, ∅, 0⟩ := by
  rw [ofGraph, Graph.steps, List.foldl_flatMap, ← Array.foldl_toList]
  simp only [Array.foldl_toList]

/-- The tally says of every temporary how often it is read and written. -/
structure Exact (t : Tally) (steps : List Step) : Prop where
  reads : ∀ id, t.reads.getD id 0 = readCount steps (.temp id)
  writes : ∀ id, t.writes.getD id 0 = writeCount steps (.temp id)

theorem exact_ofGraph (g : Graph) : (ofGraph g).Exact g.steps := by
  refine ⟨fun id => ?_, fun id => ?_⟩
  · have counted := (@foldl_countStep ⟨∅, ∅, 0⟩ id g.steps).1
    rw [← ofGraph_eq_foldl] at counted
    simpa using counted
  · have counted := (@foldl_countStep ⟨∅, ∅, 0⟩ id g.steps).2
    rw [← ofGraph_eq_foldl] at counted
    simpa using counted

theorem Exact.counts {steps : List Step} (h : t.Exact steps) : t.Counts steps := by
  refine ⟨fun id n found => ?_, fun id n found => ?_⟩
  · rw [← h.reads, Std.HashMap.getD_eq_getD_getElem?, found]
    rfl
  · rw [← h.writes, Std.HashMap.getD_eq_getD_getElem?, found]
    rfl

theorem counts_ofGraph (g : Graph) : (ofGraph g).Counts g.steps := (exact_ofGraph g).counts

/-- A temporary that is passed on is read once and written once. -/
theorem Counts.passing {steps : List Step} (h : t.Counts steps) {a : Address}
    (passing : t.isPassing a = true) :
    a = .temp a.id ∧ readCount steps a = 1 ∧ writeCount steps a = 1 := by
  rw [isPassing, Bool.and_eq_true, Bool.and_eq_true] at passing
  obtain ⟨⟨temp, reads⟩, writes⟩ := passing
  have same : a = .temp a.id := by
    obtain ⟨space, id⟩ := a
    obtain rfl := of_decide_eq_true temp
    rfl
  refine ⟨same, ?_, ?_⟩
  · have read := h.reads _ 1 (of_decide_eq_true reads)
    rw [← same] at read
    exact read.symm
  · have written := h.writes _ 1 (of_decide_eq_true writes)
    rw [← same] at written
    exact written.symm

end Tally

/-! ### Counting in lists -/

section

variable {α β : Type} [DecidableEq β] {f : α → List β} {xs : List α} {x y : α} {i j : Nat} {b : β}

/-- What is counted once stands in one place. -/
theorem unique_of_count_flatMap (once : (xs.flatMap f).count b = 1) (found : xs[i]? = some x)
    (mem : b ∈ f x) (found' : xs[j]? = some y) (mem' : b ∈ f y) : i = j := by
  have counted {xs : List α} {i : Nat} {x : α} (found : xs[i]? = some x) (mem : b ∈ f x) :
      0 < (xs.flatMap f).count b :=
    List.count_pos_iff.2 (List.mem_flatMap.2 ⟨x, List.mem_of_getElem? found, mem⟩)
  induction xs generalizing i j with
  | nil => cases found
  | cons z xs ih =>
      rw [List.flatMap_cons, List.count_append] at once
      cases i with
      | zero =>
          cases j with
          | zero => rfl
          | succ j =>
              cases found
              have first := List.count_pos_iff.2 mem
              have second := @counted xs j y found' mem'
              omega
      | succ i =>
          have second := @counted xs i x found mem
          cases j with
          | zero =>
              cases found'
              have first := List.count_pos_iff.2 mem'
              omega
          | succ j => exact congrArg Nat.succ (ih (by omega) found found')

/-- Replacing one entry changes the count by what the entries count. -/
theorem count_flatMap_set (found : xs[i]? = some x) :
    ((xs.set i y).flatMap f).count b + (f x).count b = (xs.flatMap f).count b + (f y).count b := by
  induction xs generalizing i with
  | nil => cases found
  | cons z xs ih =>
      cases i with
      | zero =>
          cases found
          simp only [List.set_cons_zero, List.flatMap_cons, List.count_append]
          omega
      | succ i =>
          have rest := ih found
          simp only [List.set_cons_succ, List.flatMap_cons, List.count_append]
          omega

end

namespace Listing

variable {l : Listing} {origin position : Nat} {middle dest : Int16} {writer w c : Step}

/-- The two steps read together what the writer reads, and write the destination once. -/
theorem Rewrites.counts (h : l.Rewrites origin position middle dest writer w c) (a : Address) :
    w.args.count a + c.args.count a = writer.args.count a ∧
      w.dest?.toList.count a + c.dest?.toList.count a = [Address.temp dest].count a := by
  cases h with
  | forward is =>
      subst is
      exact ⟨Nat.zero_add _, Nat.zero_add _⟩
  | retarget computes =>
      rw [Step.args_withDest, Step.dest_withDest computes]
      exact ⟨rfl, rfl⟩

/-- A merge changes no counts but those of the temporary that is bypassed. -/
theorem counts_replaced (h : l.Bypass origin position middle dest writer)
    (rewrites : l.Rewrites origin position middle dest writer w c) {a : Address}
    (other : a ≠ .temp middle) :
    readCount (l.replaced origin position w c).steps a = readCount l.steps a ∧
      writeCount (l.replaced origin position w c).steps a = writeCount l.steps a := by
  have changed (f : Step → List Address) :
      ((l.replaced origin position w c).steps.flatMap f).count a + (f writer).count a +
          (f (.copy (.temp dest) (.temp middle))).count a =
        (l.steps.flatMap f).count a + (f w).count a + (f c).count a := by
    have there : (l.steps.set position c)[origin]? = some writer := by
      rw [List.getElem?_set_ne (Nat.ne_of_gt h.lt)]
      exact h.here
    have first := count_flatMap_set (f := f) (y := c) (b := a) h.copy
    have second := count_flatMap_set (f := f) (y := w) (b := a) there
    rw [replaced]
    dsimp only
    omega
  have none : [Address.temp middle].count a = 0 :=
    List.count_eq_zero.2 fun mem => other (List.mem_singleton.1 mem)
  obtain ⟨read, written⟩ := rewrites.counts a
  have reads : readCount _ a + _ + [Address.temp middle].count a = readCount _ a + _ + _ :=
    changed Step.args
  have writes : writeCount _ a + _ + [Address.temp dest].count a = writeCount _ a + _ + _ :=
    changed fun step => step.dest?.toList
  have gives : writer.dest?.toList.count a = 0 := by
    rw [h.gives]
    exact none
  exact ⟨by omega, by omega⟩

/-- The tally without the temporary that is bypassed counts what is left. -/
theorem counts_bypass {t : Tally} (h : l.Bypass origin position middle dest writer)
    (rewrites : l.Rewrites origin position middle dest writer w c) (counts : t.Counts l.steps) :
    (t.bypass (.temp middle)).Counts (l.replaced origin position w c).steps := by
  have erased {counts : Std.HashMap Int16 Nat} {id : Int16} {n : Nat}
      (found : (counts.erase middle)[id]? = some n) :
      Address.temp id ≠ .temp middle ∧ counts[id]? = some n := by
    rw [Std.HashMap.getElem?_erase] at found
    split at found
    · cases found
    · rename_i other
      refine ⟨fun same => other ?_, found⟩
      exact beq_iff_eq.2 (congrArg Address.id same).symm
  refine ⟨fun id n found => ?_, fun id n found => ?_⟩
  · obtain ⟨other, found⟩ := erased found
    rw [(counts_replaced h rewrites other).1]
    exact counts.reads id n found
  · obtain ⟨other, found⟩ := erased found
    rw [(counts_replaced h rewrites other).2]
    exact counts.writes id n found

end Listing

/-! ### The windows of calls -/

/-- What `argumentCopies` makes of one more step in front. -/
def pinStep (step : Step) : Nat × Nat × List Bool → Nat × Nat × List Bool
  | (position, floor, marks) =>
    let position := position - 1
    (position, match step.window? with
      | some count => min floor (position - count)
      | none => floor, (step.isCopy && decide (floor ≤ position)) :: marks)

theorem argumentCopies_eq (steps : Array Step) :
    argumentCopies steps =
      (steps.toList.foldr pinStep (steps.size, steps.size, [])).2.2.toArray := by
  rw [argumentCopies, ← Array.foldr_toList]
  rfl

/-- The steps from `position` on have been looked at. -/
structure Pinned (steps : List Step) (position : Nat) (state : Nat × Nat × List Bool) : Prop where
  reached : state.1 = position
  floor : ∀ (j : Nat) (step : Step) (n : Nat), steps[j]? = some step → step.window? = some n →
    state.2.1 ≤ position + j - n
  marks : ∀ (j : Nat) (step : Step) (n i : Nat) (copy : Step), steps[j]? = some step →
    step.window? = some n → position + j - n ≤ position + i → i < j → steps[i]? = some copy →
    copy.isCopy = true → state.2.2[i]? = some true

theorem pinned_foldr (steps : List Step) (position : Nat) :
    Pinned steps position
      (steps.foldr pinStep (position + steps.length, position + steps.length, [])) := by
  induction steps generalizing position with
  | nil => exact ⟨rfl, by simp, by simp⟩
  | cons first steps ih =>
      have rest := ih (position + 1)
      rw [Nat.add_right_comm, Nat.add_assoc] at rest
      rw [List.length_cons, List.foldr_cons]
      generalize steps.foldr pinStep (position + (steps.length + 1), position + (steps.length + 1),
        []) = state at rest
      obtain ⟨at_, floor, marks⟩ := state
      have here : at_ - 1 = position := by rw [show at_ = position + 1 from rest.reached]; rfl
      have lower : (pinStep first (at_, floor, marks)).2.1 ≤ floor := by
        simp only [pinStep]
        split
        · exact Nat.min_le_left _ _
        · exact Nat.le_refl _
      refine ⟨here, fun j step n found window => ?_,
        fun j step n i copy found window low lt found' isCopy => ?_⟩
      · cases j with
        | zero =>
            cases found
            simp only [pinStep, window, here]
            exact Nat.min_le_right _ _
        | succ j =>
            have below := rest.floor j step n found window
            exact Nat.le_trans lower (by simp only at below; omega)
      · cases j with
        | zero => omega
        | succ j =>
            cases i with
            | zero =>
                cases found'
                have below := rest.floor j step n found window
                have low : floor ≤ position := by simp only at below; omega
                simp only [pinStep, here, isCopy, low, decide_true, Bool.and_self,
                  List.getElem?_cons_zero]
            | succ i =>
                exact rest.marks j step n i copy found window (by omega) (by omega) found' isCopy

/-- The copies in the window of a call are marked. -/
theorem argumentCopies_of_window {steps : Array Step} {j n i : Nat} {step copy : Step}
    (found : steps[j]? = some step) (window : step.window? = some n) (low : j - n ≤ i) (lt : i < j)
    (found' : steps[i]? = some copy) (isCopy : copy.isCopy = true) :
    (argumentCopies steps).getD i false = true := by
  have pinned := pinned_foldr steps.toList 0
  rw [Nat.zero_add, Array.length_toList] at pinned
  rw [← Array.getElem?_toList] at found found'
  have mark := pinned.marks j step n i copy found window (by omega) lt found' isCopy
  rw [Array.getD_eq_getD_getElem?, argumentCopies_eq, List.getElem?_toArray, mark]
  rfl

end RegisterCode
