import Mathlib
import RegisterCode.Proofs.Code.Accepted
import RegisterCode.Proofs.Code.Lighter
import RegisterCode.Proofs.Machine.Missing

/-!
Condensing preserves programs (`condensing_of_accepted`): a run of a program that reads nothing
but what it wrote ends in the same way when the program is condensed, and takes no more.
-/

namespace RegisterCode

open Machine Tracked

namespace Listing

variable {l l' : Listing} {pool functions procedures k index : Nat}

/-- A marker of a condensed listing stores no greater index than it did before. -/
theorem Shrinks.patches (h : l.Shrinks l') (fresh : l.Fresh)
    (orderly : l.Orderly pool functions procedures) (patches : l'.Patches k index) :
    ∃ index', l.Patches k index' ∧ index ≤ index' := by
  have place := h.place_le fresh orderly k
  refine ⟨l.place k - 1, ⟨?_, rfl⟩, by rw [patches.index]; omega⟩
  have still {op : Op} (found : l'.steps[k]? = some (.act op)) (marker : op ≠ .condensed) :
      l.steps[k]? = some (.act op) := by
    obtain ⟨step, here, became⟩ := h.became k _ found
    generalize is : Step.act op = step' at became
    cases became with
    | same =>
        subst is
        exact here
    | gone =>
        cases is
        exact absurd rfl marker
    | copied => cases is
    | @moved step _ _ _ dest =>
        cases step with
        | unary | binary => cases is
        | _ => cases dest
  exact patches.marker.imp (fun found => still found (by decide)) fun found =>
    still found (by decide)

end Listing

namespace Bundle

variable {b : Bundle} {procedures : Nat}

/-- The chart of a bundle that is condensed. -/
theorem Compiled.condensed (h : b.Compiled procedures) (table : Array Procedure) :
    (b.chart table).Condensed (b.condense.bundle.chart table) := by
  have merged := h.condense.2
  have graph {f : Nat} {l : Listing} (found : (b.chart table).listings[f]? = some l) :
      ∃ g g' : Graph, b.graphs[f]? = some g ∧ g.listing = l ∧
        (b.condense.bundle.chart table).listings[f]? = some g'.listing ∧
        Relation.ReflTransGen Listing.Merges l g'.listing := by
    rw [chart, List.getElem?_map, Array.getElem?_toList] at found
    obtain ⟨g, there, rfl⟩ := Option.map_eq_some_iff.1 found
    obtain ⟨g', there', merges⟩ := merged.graphs f g there
    refine ⟨g, g', there, rfl, ?_, merges⟩
    rw [chart, List.getElem?_map, Array.getElem?_toList, there', Option.map_some]
  refine ⟨⟨merged.constants, rfl, fun f l found => ?_⟩, fun l mem => ?_,
    fun f l l' found found' => ?_⟩
  · obtain ⟨g, g', there, rfl, found', merges⟩ := graph found
    obtain ⟨R, simulates⟩ := Listing.exists_simulates (b.chart table)
      (h.orderly g (Array.mem_of_getElem? there)) merges
    exact ⟨_, R, found', simulates⟩
  · obtain ⟨g, there, rfl⟩ := List.mem_map.1 mem
    exact h.fresh g (Array.mem_toList_iff.1 there)
  · obtain ⟨g, g', -, -, there, merges⟩ := graph found
    rw [there] at found'
    cases found'
    exact Listing.shrinks_of_merges merges

/-- A bundle that is emitted is also emitted when it is condensed. -/
theorem Compiled.emission_condensed (h : b.Compiled procedures) {program : Program}
    (emitted : Program.ofBundle b = .ok program) :
    ∃ program', Program.ofBundle b.condense.bundle = .ok program' ∧
      program'.entry? = program.entry? := by
  have merged := h.condense.2
  have near := h.toOrderly.emission.1.1 ⟨program, emitted⟩
  obtain ⟨program', emitted'⟩ := merged.toOrderly.emission.1.2 fun f index patches => by
    obtain ⟨g', k, there', patches⟩ := patches
    have lt : f < b.graphs.size := merged.size ▸ (Array.getElem?_eq_some_iff.1 there').1
    have there := Array.getElem?_eq_getElem lt
    have mem := Array.getElem_mem lt
    obtain ⟨g'', same, merges⟩ := merged.graphs f _ there
    rw [there'] at same
    cases same
    obtain ⟨index', before, le⟩ := (Listing.shrinks_of_merges merges).patches (h.fresh _ mem)
      (h.orderly _ mem) patches
    exact Nat.lt_of_le_of_lt le (near f index' ⟨_, k, there, before⟩)
  refine ⟨program', emitted', ?_⟩
  obtain ⟨-, entry, size, -⟩ := ofBundle_ok emitted
  obtain ⟨-, entry', size', -⟩ := ofBundle_ok emitted'
  rw [Program.entry?, Program.entry?, entry, entry', size, size', merged.size, merged.main]

end Bundle

/-- A run begins in the same way if the entry is the same. -/
theorem Machine.begin_congr {s s' : Setting} (limits : s'.limits = s.limits)
    (entry : s'.program.entry? = s.program.entry?) (m : Machine) : m.begin s' = m.begin s := by
  rw [begin, begin, limits, entry]

/-- A run of linked code that is completed stays as it is when the code is condensed. -/
theorem Chart.Condensed.completes {s s' : Setting} {c c' : Chart} (condensed : c.Condensed c')
    (linked : Linked s c) (linked' : Linked s' c') (limits : s'.limits = s.limits)
    (entry : s'.program.entry? = s.program.entry?) (m : Machine) {n : Nat} {z : Tracked}
    (run : Completes s storing (Clean s c.arity) n (.begin s m) z) :
    ∃ n' z', Completes s' storing Any n' (.begin s' m) z' ∧
      z'.machine.status = z.machine.status ∧ z'.machine.world = z.machine.world ∧
      (z.machine.status = .ok → z'.machine.register? 0 = z.machine.register? 0) ∧
      z'.machine.steps ≤ z.machine.steps ∧ z'.peak ≤ z.peak := by
  have begins : Tracked.begin s' m = Tracked.begin s m := by
    rw [Tracked.begin, Tracked.begin, begin_congr limits entry]
  have idle (stopped : (m.begin s).isRunning = false) :
      ∃ n' z', Completes s' storing Any n' (.begin s' m) z' ∧
        z'.machine.status = z.machine.status ∧ z'.machine.world = z.machine.world ∧
        (z.machine.status = .ok → z'.machine.register? 0 = z.machine.register? 0) ∧
        z'.machine.steps ≤ z.machine.steps ∧ z'.peak ≤ z.peak := by
    have stopped : (Tracked.begin s m).machine.isRunning = false := stopped
    have ended : Completes s storing Any 0 (.begin s m) (.begin s m) := .ended stopped
    obtain ⟨-, rfl⟩ := run.unique ended
    refine ⟨0, _, .ended ?_, ?_⟩
    · rw [begins]
      exact stopped
    · rw [begins]
      exact ⟨rfl, rfl, fun _ => rfl, Nat.le_refl _, Nat.le_refl _⟩
  cases main : s.program.entry? with
  | none =>
      refine idle ?_
      rw [begin_of_none m main]
      rfl
  | some func =>
      by_cases room : 2 ≤ s.limits.operands
      · obtain ⟨l, here⟩ := Match.begin linked m main room
        obtain ⟨l', there⟩ := Match.begin linked' m (entry.trans main) (limits ▸ room)
        obtain ⟨l'', R, known, simulates⟩ := condensed.listing func l here.known
        have visit : Visit.Alike c c' ⟨func, 0, fun _ => none⟩ ⟨func, 0, fun _ => none⟩ :=
          ⟨rfl, rfl, l, l'', R, here.known, known, simulates,
            simulates.enter [] (Nat.zero_le _)⟩
        have ahead : Ahead s s' c c' (.start func m.outset) (.start func m.outset)
            (.begin s m) (.begin s' m) := by
          refine ⟨⟨l, here⟩, ⟨l', there⟩, ⟨visit, .nil, rfl⟩, ?_, ?_, ?_⟩
          · rw [begins]
          · rw [begins]
          · rw [begins]
            exact List.forall₂_same.2 fun _ _ => le_refl _
        obtain ⟨r, w, finishes, own⟩ := here.finishes linked run
        obtain ⟨world, shows⟩ := here.finished linked run.any finishes
        obtain ⟨n', z', run', ⟨world', shows'⟩, steps, peak⟩ :=
          ahead.completes linked linked' condensed limits run.any finishes
        refine ⟨n', z', run', ?_, world'.trans world.symm, fun fine => ?_, steps, peak⟩
        · cases r with
          | ok v => exact shows'.1.trans shows.1.symm
          | error fault => exact shows'.trans shows.symm
        · cases r with
          | ok v => exact shows'.2.trans shows.2.symm
          | error fault => exact absurd (shows.symm.trans fine) (own fault rfl).1
      · refine idle ?_
        rw [begin_of_lt m main (Nat.not_le.1 room)]
        rfl

/-- What is clean does not depend on the procedures. -/
theorem Clean.filled {s : Setting} {arity : Nat → Nat} {i : Instruction} {x : Tracked}
    (h : Clean s arity i x) (n : Nat) : Clean (s.filled n) arity i x :=
  ⟨h.sources, h.call⟩

/-- A run of the code of a bundle that is completed stays as it is when the bundle is condensed.
The bundle may call procedures that are not in the table: those are there, and do nothing but
fail, in a table that is filled up. -/
theorem Bundle.Compiled.completes {b : Bundle} {count : Nat}
    (compiled : ∀ procedures, count ≤ procedures → b.Compiled procedures) {s s' : Setting}
    (emitted : Program.ofBundle b = .ok s.program)
    (emitted' : Program.ofBundle b.condense.bundle = .ok s'.program)
    (entry : s'.program.entry? = s.program.entry?) (limits : s'.limits = s.limits)
    (table : s'.procedures = s.procedures) (lawful : s.Lawful) (m : Machine) {n : Nat}
    {z : Tracked}
    (run : Completes s storing (Clean s (b.chart s.procedures).arity) n (.begin s m) z) :
    ∃ n' z', Completes s' storing Any n' (.begin s' m) z' ∧
      z'.machine.status = z.machine.status ∧ z'.machine.world = z.machine.world ∧
      (z.machine.status = .ok → z'.machine.register? 0 = z.machine.register? 0) ∧
      z'.machine.steps ≤ z.machine.steps ∧ z'.peak ≤ z.peak := by
  have compiled := compiled _ (s.le_size_filled count)
  have lawful' : s'.Lawful := fun p mem => lawful p (table ▸ mem)
  have filled : (s'.filled count).procedures = (s.filled count).procedures := by
    rw [Setting.filled, Setting.filled, table]
  have linked : Linked (s.filled count) (b.chart (s.filled count).procedures) :=
    linked_of_ofBundle compiled.toOrderly (lawful.filled count) emitted
  have linked' : Linked (s'.filled count)
      (b.condense.bundle.chart (s.filled count).procedures) := by
    rw [← filled] at compiled ⊢
    exact linked_of_ofBundle compiled.condense.2.toOrderly (lawful'.filled count) emitted'
  have clean : Completes (s.filled count) storing
      (Clean (s.filled count) (b.chart (s.filled count).procedures).arity) n (.begin s m) z :=
    (completes_filled_iff.2 run).mono fun _ _ clean => clean.filled count
  obtain ⟨n', z', run', same⟩ := (compiled.condensed (s.filled count).procedures).completes linked
    linked' limits entry m clean
  exact ⟨n', z', completes_filled_iff.1 run', same⟩

/-- Whether an instruction passes a function no more arguments than it has a place for. -/
def passesFew (s : Setting) (arity : Nat → Nat) (i : Instruction) (m : Machine) : Bool :=
  match m.callee s i with
  | .ok (func, argc) _ => argc ≤ max 1 (arity func)
  | .error _ _ => true

instance Clean.decidable (s : Setting) (arity : Nat → Nat) (i : Instruction) (x : Tracked) :
    Decidable (Clean s arity i x) :=
  decidable_of_iff ((∀ offset ∈ i.sources, offset ∈ x.written.headD []) ∧
      (i.op = .call → passesFew s arity i x.machine)) <| by
    refine ⟨fun ⟨sources, call⟩ => ⟨sources, fun op func argc m named => ?_⟩,
      fun ⟨sources, call⟩ => ⟨sources, fun op => ?_⟩⟩
    · have few := call op
      rw [passesFew, named] at few
      exact of_decide_eq_true few
    · rw [passesFew]
      cases named : x.machine.callee s i with
      | ok target m => exact decide_eq_true (call op _ _ _ named)
      | error => rfl

/-- Let a forest be accepted and have code. Then it has code also when its graphs are condensed,
all of which can be. Take a run of the code before that comes to its end and meets no limit,
calls no function with more arguments than it has a place for, and reads no register of a
frame that was not written before in the same activation: as an argument, or as the destination
of an instruction. The run of the condensed code comes to its end as well, with the same status,
store, input and output, and with the same value in register 0 if the status is ok. It has
started no more instructions, and its top has risen no higher. -/
theorem condensing_of_accepted {procedures : Registry} {sources : Array String}
    {forest : List SourceUnit} {b : Bundle}
    (accepted : Bundle.ofForest procedures sources forest = .ok b) {program : Program}
    (emitted : Program.ofBundle b = .ok program) {table : Array Procedure}
    (lawful : ∀ p ∈ table, p.Lawful) :
    b.condense.complete = true ∧ ∃ program', Program.ofBundle b.condense.bundle = .ok program' ∧
      ∀ (limits : Limits) (m : Machine),
        let s : Setting := ⟨limits, program, table⟩
        let s' : Setting := ⟨limits, program', table⟩
        ∀ (n : Nat) (z : Tracked),
          Completes s storing (Clean s (b.chart table).arity) n (.begin s m) z →
          ∃ n' z', Completes s' storing Any n' (.begin s' m) z' ∧
            (∀ k, n' ≤ k → (m.begin s').follow s' k = z'.machine) ∧
            z'.machine.status = z.machine.status ∧ z'.machine.world = z.machine.world ∧
            (z.machine.status = .ok → z'.machine.register? 0 = z.machine.register? 0) ∧
            z'.machine.steps ≤ z.machine.steps ∧ z'.peak ≤ z.peak := by
  have compiled (count : Nat) (many : UInt16.size ≤ count) : b.Compiled count :=
    Draft.compiled_of_ofForest (fun _ id _ => Nat.lt_of_lt_of_le id.toNat_lt many) accepted
  have least := compiled _ (Nat.le_refl _)
  obtain ⟨program', emitted', entry⟩ := least.emission_condensed emitted
  refine ⟨least.condense.1, program', emitted', fun limits m => ?_⟩
  intro s s' n z run
  have limits' : s'.limits = s.limits := rfl
  have table' : s'.procedures = s.procedures := rfl
  obtain ⟨n', z', run', same⟩ :=
    Bundle.Compiled.completes compiled emitted emitted' entry limits' table' lawful m run
  exact ⟨n', z', run', run'.follow, same⟩

theorem condensing_of_sample :
    let s : Setting := ⟨⟨8, 4, 2, some 40⟩, Sample.program, Procedure.standard⟩
    let m := Machine.initial s.limits []
    ∃ program' z n' z', Program.ofBundle Sample.bundle.condense.bundle = .ok program' ∧
      Completes s storing (Clean s (Sample.bundle.chart s.procedures).arity) 16 (.begin s m) z ∧
      Completes { s with program := program' } storing Any n'
        (.begin { s with program := program' } m) z' ∧
      z'.machine.status = z.machine.status ∧ z'.machine.steps ≤ z.machine.steps := by
  intro s m
  have ends : (completion? s storing (Clean s (Sample.bundle.chart s.procedures).arity) 40
      (.begin s m)).map Prod.fst = some 16 := by
    decide +kernel
  obtain ⟨⟨n, z⟩, completion, rfl⟩ := Option.map_eq_some_iff.1 ends
  have run := completes_of_completion? completion
  obtain ⟨-, program', emitted', preserves⟩ :=
    condensing_of_accepted Sample.accepted Sample.emitted Procedure.standard_lawful
  obtain ⟨n', z', run', -, status, -, -, steps, -⟩ := preserves s.limits m _ z run
  exact ⟨program', z, n', z', emitted', run, run', status, steps⟩

/-! ### Values left on top of a frame

It is the registers named as destinations that count as written. What is pushed on top of a
frame stays in the register file too, but where that is depends on the slots that the code has
for its temporaries. -/

/-- The marking of all that instructions write in their frame: the destinations, and the
registers on top of the frame that values are pushed to. -/
def touching : Marking := fun m i =>
  match i.op with
  | .push => some ((if i.mode? 0 = some .stack then m.top - 1 else m.top) - m.base)
  | .binary _ => some (m.top - 2 - m.base)
  | _ => i.stored?

namespace Leftover

open Sample

def text : String := "main false x 1 2 y 3 4"

/-- `main()` defines `x` in a branch that is never taken, defines `y` as `3 + 4` and returns
`x`. -/
def main : Stmt :=
  .function (token .identifier 0 4) [] (.block [
    .ifThen (atom .false 5 10) (.define (token .identifier 11 12)
      (.mkBinary .add (atom .int 13 14) (atom .int 15 16))),
    .define (token .identifier 17 18) (.mkBinary .add (atom .int 19 20) (atom .int 21 22)),
    .ret (atom .identifier 11 12)])

def forest : List SourceUnit := [⟨main, 0⟩]

def bundle : Bundle where
  graphs := #[⟨#[
    ⟨#[.actOnTwo .jumpElse (.constant 0) (.immediate 0), .act .savePatch], some 1, some 2⟩,
    ⟨#[.binary (.temp 0) (.binary .add) (.constant 1) (.constant 2),
      .copy (.temp 1) (.temp 0)], some 2, none⟩,
    ⟨#[.act .nop, .act .patchJumpElse,
      .binary (.temp 2) (.binary .add) (.constant 3) (.constant 4),
      .copy (.temp 3) (.temp 2), .actOn .ret (.temp 1)], none, none⟩], 0⟩]
  constants := #[.bool false, .int 1, .int 2, .int 3, .int 4]
  main := some 0

def program : Program where
  chunks := #[#[.make .jumpElse [.constant 0, .immediate 6], .make .push [.constant 1],
    .make .push [.constant 2], .make (.binary .add) [], .make .mov [.register 0, .stack],
    .make .mov [.register 1, .register 0], .make .nop [], .make .push [.constant 3],
    .make .push [.constant 4], .make (.binary .add) [], .make .mov [.register 2, .stack],
    .make .mov [.register 3, .register 2], .make .ret [.register 1]]]
  constants := bundle.constants
  entry := some 0

def condensed : Program where
  chunks := #[#[.make .jumpElse [.constant 0, .immediate 5], .make .push [.constant 1],
    .make .push [.constant 2], .make (.binary .add) [], .make .mov [.register 0, .stack],
    .make .nop [], .make .push [.constant 3], .make .push [.constant 4],
    .make (.binary .add) [], .make .mov [.register 1, .stack], .make .ret [.register 0]]]
  constants := bundle.constants
  entry := some 0

theorem slices : Text.slice? text 0 4 = some "main" ∧ Text.slice? text 5 10 = some "false" ∧
    Text.slice? text 11 12 = some "x" ∧ Text.slice? text 13 14 = some "1" ∧
    Text.slice? text 15 16 = some "2" ∧ Text.slice? text 17 18 = some "y" ∧
    Text.slice? text 19 20 = some "3" ∧ Text.slice? text 21 22 = some "4" := by decide

theorem numbers : Text.readInt32? "1" = some 1 ∧ Text.readInt32? "2" = some 2 ∧
    Text.readInt32? "3" = some 3 ∧ Text.readInt32? "4" = some 4 := by decide

theorem procedures : (Registry.ofTable Procedure.standard).id? "x" = none ∧
    (Registry.ofTable Procedure.standard).id? "y" = none := by
  refine ⟨?_, ?_⟩ <;> exact Registry.id?_eq_none (by decide +kernel)

open Draft in
theorem accepted : Bundle.ofForest (.ofTable Procedure.standard) #[text] forest = .ok bundle := by
  simp [Bundle.ofForest, Draft.ofForest, forest, main, SourceUnit.functionName?,
    SourceUnit.context, token, atom, Token.lexeme, Span.text, slices, numbers, procedures,
    Registry.contains, Draft.attempt, declare, Draft.empty, numberLimit, numberRange,
    ofDeclaration_function, ofFunction, ofParams_eq, newTemp, bindLocal, Draft.enter, close,
    Draft.graph, bundle?, bind_apply, ofStmt, ofBlock, ofExpr, ofLiteral, ofDefinition,
    openBranch, land, intern, lookup?, Draft.push, newBlock, newestBlock, linkLater, link,
    Expr.mkBinary, Expr.ofToken, Expr.span, Operator.binary?, Graph.empty, Graph.addBlock,
    Graph.pushNewest, Graph.push, Graph.newest?, Graph.canLink, Graph.link, Block.push,
    Block.empty, Block.link, Block.hasRoom, bundle, Step.copy, Std.HashMap.getElem_insert,
    Address.immediate, Address.temp, Address.constant]

theorem compiled : bundle.Compiled 65536 :=
  Draft.compiled_of_ofForest (fun _ id _ => id.toNat_lt) accepted

theorem emitted : Program.ofBundle bundle = .ok program := by
  rw [compiled.toOrderly.ofBundle_eq (by decide)]
  decide +kernel

/-- What condensing makes of the graph. -/
theorem condense_eq : bundle.condense.bundle = { bundle with
    graphs := #[⟨#[
      ⟨#[.actOnTwo .jumpElse (.constant 0) (.immediate 0), .act .savePatch], some 1, some 2⟩,
      ⟨#[.binary (.temp 1) (.binary .add) (.constant 1) (.constant 2), .neutral], some 2, none⟩,
      ⟨#[.act .nop, .act .patchJumpElse,
        .binary (.temp 3) (.binary .add) (.constant 3) (.constant 4), .neutral,
        .actOn .ret (.temp 1)], none, none⟩], 0⟩] } := by
  cbv

theorem emitted_condensed : Program.ofBundle bundle.condense.bundle = .ok condensed := by
  have orderly := compiled.condense.2.toOrderly
  rw [condense_eq] at orderly ⊢
  rw [orderly.ofBundle_eq (by decide)]
  decide +kernel

end Leftover

/-- If pushed values counted as written, condensing could change the result of a run. `x` is in
the register that 4 was pushed to before, and where `x` is in the condensed code, there 3 was
pushed to, and 7 after it. -/
theorem condensing_moves_leftover :
    let s : Setting := ⟨.standard, Leftover.program, Procedure.standard⟩
    let s' : Setting := ⟨.standard, Leftover.condensed, Procedure.standard⟩
    let m := Machine.initial s.limits []
    Bundle.ofForest (.ofTable Procedure.standard) #[Leftover.text] Leftover.forest =
      .ok Leftover.bundle ∧
    Program.ofBundle Leftover.bundle = .ok Leftover.program ∧
    Program.ofBundle Leftover.bundle.condense.bundle = .ok Leftover.condensed ∧
    ∃ z z', Completes s touching (Clean s (Leftover.bundle.chart s.procedures).arity) 8
        (.begin s m) z ∧
      Completes s' touching Any 7 (.begin s' m) z' ∧
      z.machine.status = .ok ∧ z.machine.register? 0 = some (.int 4) ∧
      z'.machine.status = .ok ∧ z'.machine.register? 0 = some (.int 7) := by
  intro s s' m
  have ends : (completion? s touching (Clean s (Leftover.bundle.chart s.procedures).arity) 10
      (.begin s m)).map (fun q => (q.1, q.2.machine.status, q.2.machine.register? 0)) =
      some (8, .ok, some (.int 4)) := by
    decide +kernel
  have ends' : (completion? s' touching Any 10 (.begin s' m)).map
      (fun q => (q.1, q.2.machine.status, q.2.machine.register? 0)) =
      some (7, .ok, some (.int 7)) := by
    decide +kernel
  obtain ⟨⟨n, z⟩, completion, same⟩ := Option.map_eq_some_iff.1 ends
  obtain ⟨⟨n', z'⟩, completion', same'⟩ := Option.map_eq_some_iff.1 ends'
  obtain ⟨rfl, status, value⟩ : n = 8 ∧ z.machine.status = .ok ∧
      z.machine.register? 0 = some (.int 4) := by simpa using same
  obtain ⟨rfl, status', value'⟩ : n' = 7 ∧ z'.machine.status = .ok ∧
      z'.machine.register? 0 = some (.int 7) := by simpa using same'
  exact ⟨Leftover.accepted, Leftover.emitted, Leftover.emitted_condensed, z, z',
    completes_of_completion? completion, completes_of_completion? completion', status, value,
    status', value'⟩

end RegisterCode
