import RegisterCode.Proofs.Flow.CallSites
import RegisterCode.Proofs.Flow.WellFormed

/-!
Where two steps of a block can be merged (`Graph.Site`), in any graph, whether it was compiled or
drawn by hand. There is a merge at a position just when there is a site, as long as the tally
counts every temporary (`Tally.Exact`).
-/

namespace RegisterCode

/-! ### Counting reads and writes -/

theorem readCount_pos_iff {steps : List Step} {a : Address} :
    0 < readCount steps a ↔ ∃ step ∈ steps, a ∈ step.args := by
  rw [readCount, List.count_pos_iff, List.mem_flatMap]

theorem writeCount_pos_iff {steps : List Step} {a : Address} :
    0 < writeCount steps a ↔ ∃ step ∈ steps, step.dest? = some a := by
  simp only [writeCount, List.count_pos_iff, List.mem_flatMap, Option.mem_toList]

/-! ### Tallies that count every temporary -/

namespace Tally

theorem getElem?_eq_one_iff {counts : Std.HashMap Int16 Nat} {id : Int16} :
    counts[id]? = some 1 ↔ counts.getD id 0 = 1 := by
  rw [Std.HashMap.getD_eq_getD_getElem?]
  cases counts[id]? with
  | none => simp
  | some n => simp

theorem Exact.isPassing_iff {t : Tally} {steps : List Step} (h : t.Exact steps) {a : Address} :
    t.isPassing a = true ↔
      ∃ id, a = .temp id ∧ readCount steps (.temp id) = 1 ∧ writeCount steps (.temp id) = 1 := by
  rw [isPassing, Bool.and_eq_true, Bool.and_eq_true, decide_eq_true_eq, decide_eq_true_eq,
    getElem?_eq_one_iff, getElem?_eq_one_iff, h.reads, h.writes]
  constructor
  · rintro ⟨⟨temp, read⟩, written⟩
    exact ⟨a.id, Draft.eq_temp_of_isTemp temp, read, written⟩
  · rintro ⟨id, rfl, read, written⟩
    exact ⟨⟨rfl, read⟩, written⟩

/-- A temporary that is forwarded is not counted any more. -/
theorem Exact.bypass {t : Tally} {steps steps' : List Step} {middle : Int16}
    (h : t.Exact steps)
    (reads : ∀ a, readCount steps' a + [Address.temp middle].count a = readCount steps a)
    (writes : ∀ a, writeCount steps' a + [Address.temp middle].count a = writeCount steps a)
    (read : readCount steps (.temp middle) = 1) (written : writeCount steps (.temp middle) = 1) :
    (t.bypass (.temp middle)).Exact steps' := by
  have erased {counts : Std.HashMap Int16 Nat} {id : Int16} {n m : Nat}
      (counted : counts.getD id 0 = n) (less : m + [Address.temp middle].count (.temp id) = n)
      (last : id = middle → n = 1) : (counts.erase middle).getD id 0 = m := by
    rw [Std.HashMap.getD_erase]
    by_cases same : middle = id
    · subst same
      rw [if_pos (beq_self_eq_true _)]
      rw [List.count_singleton_self, last rfl] at less
      omega
    · rw [if_neg (by simpa using same), counted, ← less, List.count_eq_zero.2, Nat.add_zero]
      rw [List.mem_singleton]
      exact fun eq => same (congrArg Address.id eq).symm
  exact ⟨fun id => erased (h.reads id) (reads _) fun same => same ▸ read,
    fun id => erased (h.writes id) (writes _) fun same => same ▸ written⟩

end Tally

/-! ### Where two steps can be merged -/

/-- The row with the two steps of a merge in it. -/
def Merge.into (merge : Merge) (row : Array Step) (origin position : Nat) : Array Step :=
  (row.setIfInBounds position merge.copy).setIfInBounds origin merge.writer

/-- The steps of a row between two positions. -/
def between (row : Array Step) (origin position : Nat) : List Step :=
  (row.extract (origin + 1) position).toList

theorem mem_between {row : Array Step} {origin position : Nat} {step : Step} :
    step ∈ between row origin position ↔
      ∃ q, origin < q ∧ q < position ∧ row[q]? = some step := by
  rw [between, Array.mem_toList_iff, Array.mem_extract_iff_getElem]
  constructor
  · rintro ⟨q, lt, rfl⟩
    exact ⟨origin + 1 + q, by omega, by omega, Array.getElem?_eq_getElem (by omega)⟩
  · rintro ⟨q, low, high, found⟩
    obtain ⟨lt, rfl⟩ := Array.getElem?_eq_some_iff.1 found
    refine ⟨q - (origin + 1), by omega, ?_⟩
    congr 1
    omega

/-- In a row of the graph, the step at `origin` gives the temporary `middle` a value, and the copy
at `position` passes it on to `dest`. Neither feeds a call, nothing else in the whole graph
mentions `middle`, and the two steps fit together as `merge` has them. -/
structure Graph.Site (g : Graph) (row : Array Step) (origin position : Nat) (middle : Int16)
    (dest : Address) (writer : Step) (merge : Merge) : Prop where
  lt : origin < position
  here : row[origin]? = some writer
  gives : writer.dest? = some (.temp middle)
  copy : row[position]? = some (.copy dest (.temp middle))
  read : readCount g.steps (.temp middle) = 1
  written : writeCount g.steps (.temp middle) = 1
  unpinned : (argumentCopies row).getD origin false = false ∧
    (argumentCopies row).getD position false = false
  plain : ∀ step ∈ between row origin position, step.op.isCall = false
  fits : merge.Fits writer (between row origin position) dest

/-- Two steps are merged if no call is between them and they fit. -/
theorem merge?_eq_some_iff {writer : Step} {steps : Array Step} {dest : Address} {merge : Merge} :
    merge? writer steps dest = some merge ↔
      (∀ step ∈ steps.toList, step.op.isCall = false) ∧ merge.Fits writer steps.toList dest := by
  refine ⟨merge?_spec, fun ⟨plain, fits⟩ => ?_⟩
  have none {p : Step → Bool} (h : ∀ step ∈ steps.toList, p step = false) : steps.any p = false := by
    rw [← Array.any_toList, List.any_eq_false]
    exact fun step mem => Bool.eq_false_iff.1 (h step mem)
  unfold merge?
  rw [if_neg (by rw [none plain]; exact Bool.false_ne_true)]
  cases fits with
  | forward is steady =>
      subst is
      refine if_neg fun blocked => ?_
      obtain ⟨temp, written⟩ := Bool.and_eq_true_iff.1 blocked
      have unwritten := none fun step mem => decide_eq_false (steady temp step mem)
      exact Bool.false_ne_true (unwritten.symm.trans written)
  | retarget computes unwritten unread =>
      have free : ¬ (writes steps dest || reads steps dest) = true := by
        have w : writes steps dest = false :=
          none fun step mem => decide_eq_false (unwritten step mem)
        have r : reads steps dest = false :=
          none fun step mem => Bool.eq_false_iff.2 fun inside =>
            unread step mem (List.contains_iff_mem.1 inside)
        rw [w, r]
        exact Bool.false_ne_true
      cases writer with
      | unary _ op _ =>
          cases op with
          | neg => exact if_neg free
          | _ => cases computes
      | binary => exact if_neg free
      | _ => cases computes

/-- The last writer before a position is found. -/
theorem writerBefore?_of_last {steps : Array Step} {a : Address} {n origin : Nat} {writer : Step}
    (lt : origin < n) (here : steps[origin]? = some writer) (gives : writer.dest? = some a)
    (last : ∀ q step, origin < q → q < n → steps[q]? = some step → step.dest? ≠ some a) :
    writerBefore? steps a n = some origin := by
  induction n with
  | zero => omega
  | succ n ih =>
      rw [writerBefore?]
      by_cases same : origin = n
      · subst same
        rw [here, Option.bind_some, gives, if_pos rfl]
      · rw [if_neg]
        · exact ih (by omega) fun q step low high => last q step low (by omega)
        · intro writes
          obtain ⟨step, found, dest⟩ := Option.bind_eq_some_iff.1 writes
          exact last n step (by omega) (Nat.lt_succ_self n) found dest

namespace Graph

variable {g g' : Graph} {id origin position : Nat} {b : Block} {row : Array Step}
  {middle : Int16} {dest : Address} {writer : Step} {merge : Merge}

/-! ### The steps of one block among those of the graph -/

theorem steps_block (found : g.blocks[id]? = some b) {j : Nat} {step : Step}
    (at_ : b.steps[j]? = some step) : g.steps[g.offset id + j]? = some step := by
  have lt := (Array.getElem?_eq_some_iff.1 at_).1
  rw [steps_offset (getElem?_rows found) (by rwa [Array.length_toList]), Array.getElem?_toList, at_]

theorem mem_steps_iff {step : Step} :
    step ∈ g.steps ↔ ∃ (id : Nat) (b : Block) (j : Nat), g.blocks[id]? = some b ∧
      b.steps[j]? = some step := by
  rw [steps, List.mem_flatMap]
  constructor
  · rintro ⟨b, mem, inside⟩
    obtain ⟨id, found⟩ := List.mem_iff_getElem?.1 mem
    obtain ⟨j, at_⟩ := List.mem_iff_getElem?.1 inside
    rw [Array.getElem?_toList] at found at_
    exact ⟨id, b, j, found, at_⟩
  · rintro ⟨id, b, j, found, at_⟩
    exact ⟨b, Array.mem_toList_iff.2 (Array.mem_of_getElem? found),
      Array.mem_toList_iff.2 (Array.mem_of_getElem? at_)⟩

namespace Site

/-- Nothing else in the row writes the temporary. -/
theorem writer_unique (found : g.blocks[id]? = some b)
    (site : g.Site b.steps origin position middle dest writer merge) {q : Nat} {step : Step}
    (at_ : b.steps[q]? = some step) (writes : step.dest? = some (.temp middle)) : q = origin := by
  have same := unique_of_count_flatMap site.written (steps_block found at_)
    (by rw [writes]; exact List.mem_singleton_self _) (steps_block found site.here)
    (by rw [site.gives]; exact List.mem_singleton_self _)
  omega

/-- Nothing else in the row reads it. -/
theorem reader_unique (found : g.blocks[id]? = some b)
    (site : g.Site b.steps origin position middle dest writer merge) {q : Nat} {step : Step}
    (at_ : b.steps[q]? = some step) (reads : .temp middle ∈ step.args) : q = position := by
  have same := unique_of_count_flatMap site.read (steps_block found at_) reads
    (steps_block found site.copy) (List.mem_singleton_self _)
  omega

end Site

/-- The copy at a position is merged where there is a site for it. -/
theorem mergeAt?_eq_some_iff {t : Tally} {pinned : Array Bool} {a : Address}
    (exact : t.Exact g.steps) (found : g.blocks[id]? = some b)
    (pins : ∀ i, pinned.getD i false = (argumentCopies b.steps).getD i false) :
    mergeAt? pinned b.steps t position = some (origin, a, merge) ↔
      ∃ middle dest writer, a = .temp middle ∧
        g.Site b.steps origin position middle dest writer merge := by
  constructor
  · intro merges
    obtain ⟨dest, writer, m, plain, fits⟩ := mergeAt?_spec merges
    obtain ⟨middle, rfl, read, written⟩ := exact.isPassing_iff.1 m.passing
    have unpinned := m.unpinned
    rw [pins, pins] at unpinned
    exact ⟨middle, dest, writer, rfl, m.lt, m.here, m.gives, m.copy, read, written, unpinned,
      plain, fits⟩
  · rintro ⟨middle, dest, writer, rfl, site⟩
    have passing := exact.isPassing_iff.2 ⟨middle, rfl, site.read, site.written⟩
    have before : writerBefore? b.steps (.temp middle) position = some origin :=
      writerBefore?_of_last site.lt site.here site.gives fun q step low _ at_ writes => by
        have same := site.writer_unique found at_ writes
        omega
    have merged := merge?_eq_some_iff.2 ⟨site.plain, site.fits⟩
    rw [mergeAt?, pins, site.unpinned.2]
    simp only [Bool.false_eq_true, if_false, site.copy, Step.copy, Option.bind_eq_bind,
      Option.bind_some, passing, if_true, before, pins, site.unpinned.1, site.here, merged]

end Graph

end RegisterCode
