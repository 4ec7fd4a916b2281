import RegisterCode.Proofs.Code.Safety
import RegisterCode.Proofs.Flow.Condensing
import RegisterCode.Proofs.Tree.Filling

/-!
Forests that are accepted have code, condensed or not (`emission_of_accepted`), and runs of
that code come to an end (`termination_of_accepted`) and do not go wrong
(`safety_of_accepted`).
-/

namespace RegisterCode

/-- A bundle as it was compiled, or after condensing. -/
inductive Bundle.Variant (b : Bundle) : Bundle → Prop where
  | plain : Variant b b
  | condensed : Variant b b.condense.bundle

variable {procedures : Registry} {sources : Array String} {forest : List SourceUnit}
  {b b' : Bundle}

/-- Both variants of a forest that is accepted are orderly. -/
theorem orderly_of_variant {count : Nat} (below : procedures.Below count)
    (accepted : Bundle.ofForest procedures sources forest = .ok b) (variant : b.Variant b') :
    b'.Orderly count := by
  have compiled := Draft.compiled_of_ofForest below accepted
  cases variant with
  | plain => exact compiled.toOrderly
  | condensed => exact compiled.condense.2.toOrderly

/-- Each graph of a variant comes from that of the same function by merges, and its rows are
straight. -/
theorem origin_of_variant (accepted : Bundle.ofForest procedures sources forest = .ok b)
    (variant : b.Variant b') {f : Nat} {g' : Graph} (at_ : b'.graphs[f]? = some g') :
    ∃ g, b.graphs[f]? = some g ∧ Relation.ReflTransGen Listing.Merges g.listing g'.listing ∧
      ∀ row ∈ g'.rows, Straight row := by
  have compiled : b.Compiled 65536 :=
    Draft.compiled_of_ofForest (fun _ id _ => id.toNat_lt) accepted
  have mem := Array.mem_of_getElem? at_
  cases variant with
  | plain =>
      exact ⟨g', at_, .refl, (compiled.drawn g' mem).straight (compiled.orderly g' mem)⟩
  | condensed =>
      have merged := compiled.condense.2
      have lt := (Array.getElem?_eq_some_iff.1 at_).1
      rw [merged.size] at lt
      have found : b.graphs[f]? = some b.graphs[f] := Array.getElem?_eq_getElem lt
      obtain ⟨g'', at_', merges⟩ := merged.graphs f _ found
      obtain rfl := Option.some.inj (at_.symm.trans at_')
      exact ⟨_, found, merges, merged.straight g' mem⟩

/-- The graphs of a forest that is accepted are emitted, condensed or not, if and only if
every marker finds the index that it has to store in range. If one does not, that index is
reported, and this is the only error there is. -/
theorem emission_of_accepted (accepted : Bundle.ofForest procedures sources forest = .ok b)
    (variant : b.Variant b') :
    ((∃ program, Program.ofBundle b' = .ok program) ↔
      ∀ func index, b'.Patches func index → index < numberRange) ∧
    ∀ error, Program.ofBundle b' = .error error →
      ∃ func index, b'.Patches func index ∧ numberRange ≤ index ∧
        error = .operandOverflow func index :=
  (orderly_of_variant (fun _ id _ => id.toNat_lt) accepted variant).emission

theorem emission_of_condensed_sample :
    Bundle.ofForest (.ofTable Procedure.standard) #[Sample.text] Sample.forest =
      .ok Sample.bundle ∧
    Sample.bundle.Variant Sample.bundle.condense.bundle ∧
    ∀ error, Program.ofBundle Sample.bundle.condense.bundle = .error error →
      ∃ func index, Sample.bundle.condense.bundle.Patches func index ∧ numberRange ≤ index ∧
        error = .operandOverflow func index :=
  ⟨Sample.accepted, .condensed, (emission_of_accepted Sample.accepted .condensed).2⟩

/-- A run of the program of a forest comes to an end, condensed or not, whatever the
limits, the input and the state that the machine was in: one of so many steps says that it
was the last, with or without a limit on steps. -/
theorem termination_of_accepted (accepted : Bundle.ofForest procedures sources forest = .ok b)
    (variant : b.Variant b') {program : Program} (emitted : Program.ofBundle b' = .ok program)
    {table : Array Procedure} (confined : ∀ p ∈ table, p.IsConfined) (limits : Limits)
    (m : Machine) :
    let s : Setting := ⟨limits, program, table⟩
    (m.begin s).EndsWithin s ((program.longest + 2) ^ (max 1 limits.depth + 1)) := by
  intro s
  have orderly := orderly_of_variant (fun _ id _ => id.toNat_lt) accepted variant
  have forward : s.program.Forward := forward_of_ofBundle orderly emitted
  exact forward.endsWithin confined (Machine.begin_framed s m)

theorem termination_of_sample :
    let s : Setting := ⟨⟨8, 4, 2, none⟩, Sample.program, Procedure.standard⟩
    ((Machine.initial s.limits []).begin s).EndsWithin s ((15 + 2) ^ 3) :=
  termination_of_accepted Sample.accepted .plain Sample.emitted
    (fun p mem => (Procedure.standard_lawful p mem).confined) ⟨8, 4, 2, none⟩ _

/-! ### Safety -/

/-- A run is followed up to one of the machines on it. -/
theorem Machine.passes_execute (s : Setting) (m : Machine) :
    (m.begin s).Passes s (m.execute s) := by
  rw [execute]
  split
  · exact ⟨_, rfl⟩
  · exact ⟨0, rfl⟩

/-- The entry of the program, condensed or not. -/
theorem entry?_of_variant {table : Array Procedure}
    (accepted : Bundle.ofForest (.ofTable table) sources forest = .ok b)
    (variant : b.Variant b') {program : Program} (emitted : Program.ofBundle b' = .ok program) :
    program.entry? = mainFunction? (declarations sources forest) := by
  cases variant with
  | plain => exact entry?_of_ofForest accepted rfl rfl emitted
  | condensed =>
      have merged := (Draft.compiled_of_ofForest (below_ofTable table) accepted).condense.2
      exact entry?_of_ofForest accepted merged.main merged.size emitted

/-- The code of a forest, condensed or not, does not go wrong with the standard procedures,
whatever the limits, the input and the state that the machine was in. All along a run, and at
the end of it, the status tells that there is no entry function if and only if no function
is called `main`, and it never tells of an operand that cannot be read. There may be no room for
the frame of the entry function. Other than that a status has a verdict, and whenever an
instruction fails, it does so for a reason that compiled code can have. -/
theorem safety_of_accepted
    (accepted : Bundle.ofForest (.ofTable Procedure.standard) sources forest = .ok b)
    (variant : b.Variant b') {program : Program} (emitted : Program.ofBundle b' = .ok program)
    (limits : Limits) (m : Machine) :
    let s : Setting := ⟨limits, program, Procedure.standard⟩
    (m.begin s).Passes s (m.execute s) ∧
    ∀ n, (m.begin s).Passes s n →
      (n.status = .entryError ↔ mainFunction? (declarations sources forest) = none) ∧
      n.status ≠ .opError ∧
      (n.status = .entryError ∨ n.status = .memError ∧ limits.operands < 2 ∨
        (m.begin s).Verdict s n.status) ∧
      ∀ fault n', n.attempt s = .failed fault n' →
        n.Cause s (s.program.fetch? n.func n.place) fault := by
  intro s
  have orderly := orderly_of_variant (below_ofTable Procedure.standard) accepted variant
  have linked : Linked s (b'.chart s.procedures) :=
    linked_of_ofBundle orderly Procedure.standard_lawful emitted
  have objects : ∀ p ∈ s.procedures, p.Objects := Procedure.standard_objects
  have begun : Machine.Proper s _ (m.begin s) := .begin linked m
  have entry : s.program.entry? = mainFunction? (declarations sources forest) :=
    entry?_of_variant accepted variant emitted
  refine ⟨m.passes_execute s, fun n passes => ?_⟩
  have failed : ∀ fault n', n.attempt s = .failed fault n' →
      n.Cause s (s.program.fetch? n.func n.place) fault := by
    intro fault n' fails
    have attempt := (begun.passes linked objects passes).attempt linked objects
    rwa [fails] at attempt
  rw [← entry]
  cases main : s.program.entry? with
  | none =>
      -- The run is over as soon as it has begun.
      have begins := Machine.begin_of_none m main
      obtain ⟨k, rfl⟩ := passes
      have stopped : (m.begin s).isRunning = false := by rw [begins]; rfl
      rw [Tracked.follow_of_stopped stopped] at failed ⊢
      have status : (m.begin s).status = .entryError := by rw [begins]
      rw [status]
      exact ⟨by simp, by decide, .inl rfl, failed⟩
  | some func =>
      by_cases room : 2 ≤ limits.operands
      · have status : (m.begin s).status = .ok := by rw [Machine.begin_of_le m main room]; rfl
        have verdict := begun.verdict linked objects status passes
        refine ⟨?_, verdict.status.1, .inr (.inr verdict), failed⟩
        exact iff_of_false verdict.status.2 (by simp)
      · have full := Nat.not_le.1 room
        have begins := Machine.begin_of_lt m main full
        obtain ⟨k, rfl⟩ := passes
        have stopped : (m.begin s).isRunning = false := by rw [begins]; rfl
        rw [Tracked.follow_of_stopped stopped] at failed ⊢
        have status : (m.begin s).status = .memError := by rw [begins]
        rw [status]
        exact ⟨by simp, by decide, .inr (.inl ⟨rfl, full⟩), failed⟩

theorem safety_of_sample :
    let s : Setting := ⟨⟨8, 4, 2, none⟩, Sample.program, Procedure.standard⟩
    let m := (Machine.initial s.limits []).execute s
    m.status ≠ .entryError ∧ m.status ≠ .opError := by
  intro s m
  have safe := safety_of_accepted Sample.accepted .plain Sample.emitted ⟨8, 4, 2, none⟩
    (Machine.initial s.limits [])
  obtain ⟨entry, operand, -⟩ := safe.2 m safe.1
  refine ⟨fun none => ?_, operand⟩
  have main := entry.1 none
  revert main
  decide

/-- Lists are longer than numbers can tell. Under the standard limits there is a run in which
nothing is wrong with the store, the reference or an index, and no limit is met, and which yet
ends with the status for all of these. -/
theorem length_beyond_numbers :
    ∃ program, Program.ofBundle Filling.bundle = .ok program ∧
      let s : Setting := ⟨.standard, program, Procedure.standard⟩
      let m := Machine.initial .standard []
      Bundle.ofForest (.ofTable Procedure.standard) #[Filling.text] Filling.forest =
          .ok Filling.bundle ∧
        (∃ n, (m.begin s).Passes s n ∧ n.status = .memError) ∧
        ¬ ∀ n fault n', (m.begin s).Passes s n → n.attempt s = .failed fault n' →
          fault.status = .memError →
          fault ∈ [.registerLimit, .operandStackLimit, .callDepthLimit, .endOfCode,
            .deadReference, .indexOutOfRange, .storeFull] := by
  obtain ⟨program, emitted⟩ := Filling.emitted
  refine ⟨program, emitted, Filling.accepted, ?_⟩
  set s : Setting := ⟨.standard, program, Procedure.standard⟩
  let m := Machine.initial .standard []
  have ample : Limits.standard.Ample 10 33 := ⟨by decide, by decide, by decide, rfl⟩
  obtain ⟨w, evaluated⟩ := Filling.evaluated (w := m.outset) rfl
  obtain ⟨k, z, run, shows', fails⟩ := exists_run_of_evaluation Procedure.standard_lawful
    Filling.hygienic Filling.accepted emitted Filling.within ample m evaluated (.failed _)
  obtain ⟨k', y, m', steps, failed⟩ := fails .lengthLimit rfl
  refine ⟨⟨z.machine, ⟨k, run.follow k (Nat.le_refl k)⟩, shows'.2⟩, fun causes => ?_⟩
  have cause := causes y.machine .lengthLimit m' ⟨k', steps.follow⟩ failed rfl
  revert cause
  decide

end RegisterCode
