import Mathlib
import RegisterCode.Proofs.Code.Accepted
import RegisterCode.Proofs.Flow.CallSites
import RegisterCode.Proofs.Flow.Routes

/-!
The windows of calls: a call stands behind the copies of its operands, in its own block, and they
are copied to consecutive temporaries that nothing has mentioned so far. The first of them is where
the value of the call is found. Condensing changes none of this.
-/

namespace RegisterCode

/-- The step `j` of a block has its operands in `n` temporaries, from number `first` on. -/
structure Graph.Window (g : Graph) (id j n first : Nat) : Prop where
  positive : 0 < n
  small : n < numberRange
  limit : first + n ≤ numberLimit
  inside : n ≤ j
  copies : ∀ i < n, ∃ block a, g.blocks[id]? = some block ∧
    block.steps[j - n + i]? = some (.copy (.temp (Int16.ofNat (first + i))) a)
  /-- No step in front of a copy mentions its temporary. -/
  unmentioned : ∀ i < n, ∀ q < g.offset id + (j - n + i), ∀ step, g.steps[q]? = some step →
    ¬ step.Mentions (.temp (Int16.ofNat (first + i)))
  /-- Steps behind the call mention the first of the temporaries only, and write none. -/
  result : ∀ i < n, ∀ q, g.offset id + j < q → ∀ step, g.steps[q]? = some step →
    step.Mentions (.temp (Int16.ofNat (first + i))) →
    i = 0 ∧ step.dest? ≠ some (.temp (Int16.ofNat (first + i)))

/-- The steps of a block among those of its graph. -/
theorem Graph.steps_of_block {g : Graph} {block : Block} {id j : Nat}
    (found : g.blocks[id]? = some block) (lt : j < block.steps.size) :
    g.rows[id]? = some block.steps.toList ∧ g.steps[g.offset id + j]? = block.steps[j]? := by
  have row : g.rows[id]? = some block.steps.toList := by
    rw [rows, List.getElem?_map, Array.getElem?_toList, found]
    rfl
  rw [← Array.getElem?_toList]
  exact ⟨row, steps_offset row lt⟩

/-- The window of a call that stands behind the copies of its operands. -/
theorem Graph.window_of_callAt {g : Graph} {block : Block} {id j first : Nat} {target : Callee}
    {as : List Address} {pool functions procedures : Nat}
    (orderly : g.listing.Orderly pool functions procedures)
    (straight : ∀ row ∈ g.rows, Straight row) (found : g.blocks[id]? = some block)
    (inside : j < block.steps.size)
    (call : CallAt g.steps (g.offset id + j) first target as) : g.Window id j as.length first := by
  have row := (steps_of_block found inside).1
  have at_ {i : Nat} (lt : i < block.steps.size) : g.steps[g.offset id + i]? = block.steps[i]? :=
    (steps_of_block found lt).2
  have le : as.length ≤ j := by
    have here := call.call
    rw [at_ inside, ← Array.getElem?_toList] at here
    exact (straight _ (List.mem_of_getElem? row)).window j _ _ here
      (Draft.window?_callStep call.small)
  have place (i : Nat) : g.offset id + j - as.length + i = g.offset id + (j - as.length + i) := by
    omega
  refine ⟨List.length_pos_of_ne_nil call.nonempty, call.small, call.limit, le, fun i lt => ?_,
    fun i lt q before step here => ?_, fun i lt q behind step here mentions => ?_⟩
  · have copy := call.copies i _ (List.getElem?_eq_getElem lt)
    rw [place, at_ (by omega)] at copy
    exact ⟨block, _, found, copy⟩
  · rw [← place] at before
    exact orderly.unmentioned call lt before here
  · exact orderly.result call lt behind here mentions

/-! ### A call of three operands -/

namespace Crowded

open Sample

def text : String := "main f 1 2 3 print 7"

/-- `main()` calls `f(1, 2, 3)`, although `f()` has no parameters. -/
def main : Stmt :=
  .function (token .identifier 0 4) [] (.block [.expr (.mkCall (atom .identifier 5 6)
    [atom .int 7 8, atom .int 9 10, atom .int 11 12])])

/-- `f()` prints 7. -/
def f : Stmt :=
  .function (token .identifier 5 6) [] (.block [.expr (.mkCall (atom .identifier 13 18)
    [atom .int 19 20])])

def forest : List SourceUnit := [⟨main, 0⟩, ⟨f, 0⟩]

def bundle : Bundle where
  graphs := #[
    ⟨#[⟨#[.copy (.temp 0) (.constant 0), .copy (.temp 1) (.constant 1),
      .copy (.temp 2) (.constant 2), .actOnTwo .call (.immediate 1) (.immediate 3)], none,
      none⟩], 0⟩,
    ⟨#[⟨#[.copy (.temp 0) (.constant 3), .actOnTwo .nativeCall (.immediate 0) (.immediate 1)],
      none, none⟩], 0⟩]
  constants := #[.int 1, .int 2, .int 3, .int 7]
  main := some 0

theorem slices : Text.slice? text 0 4 = some "main" ∧ Text.slice? text 5 6 = some "f" ∧
    Text.slice? text 7 8 = some "1" ∧ Text.slice? text 9 10 = some "2" ∧
    Text.slice? text 11 12 = some "3" ∧ Text.slice? text 13 18 = some "print" ∧
    Text.slice? text 19 20 = some "7" := by decide

theorem numbers : Text.readInt32? "1" = some 1 ∧ Text.readInt32? "2" = some 2 ∧
    Text.readInt32? "3" = some 3 ∧ Text.readInt32? "7" = some 7 := by decide

theorem procedures : (Registry.ofTable Procedure.standard).id? "f" = none ∧
    (Registry.ofTable Procedure.standard).id? "print" = some 0 := by
  refine ⟨Registry.id?_eq_none (by decide +kernel), ?_⟩
  cbv

open Draft in
theorem accepted : Bundle.ofForest (.ofTable Procedure.standard) #[text] forest = .ok bundle := by
  simp [Bundle.ofForest, Draft.ofForest, forest, main, f, SourceUnit.functionName?,
    SourceUnit.context, token, atom, Token.lexeme, Span.text, slices, numbers, procedures,
    Draft.attempt, declare, Draft.empty, numberLimit, numberRange, ofDeclaration_function,
    ofFunction, ofParams_eq, newTemp, Draft.enter, close, Draft.graph, bundle?, bind_apply,
    ofStmt, ofBlock, ofExpr, ofArgs, ofLiteral, ofCallee, ofName, ofCall, copyToTemp, intern,
    lookup?, Draft.push, Expr.mkCall, Expr.ofToken, Expr.span, Expr.text, Callee.op, Callee.id,
    Graph.empty, Graph.addBlock, Graph.pushNewest, Graph.push, Block.push, Block.empty, bundle,
    Step.copy, Address.immediate, Address.temp, Address.constant]

end Crowded

/-! ### Forests -/

variable {procedures : Registry} {sources : Array String} {forest : List SourceUnit}
  {b b' : Bundle}

/-- The calls of a forest that is accepted, condensed or not, have their windows, and each is
the last step of the expression that it was compiled for. -/
theorem windows_of_accepted (accepted : Bundle.ofForest procedures sources forest = .ok b)
    (variant : b.Variant b') {f : Nat} {g : Graph} (at_ : b'.graphs[f]? = some g) :
    ∃ function tasks, (declarations sources forest)[f]? = some function ∧
      (Tasks.ofForest procedures sources forest)[f]? = some tasks ∧
      tasks.map Task.site = function.body.parts.map (fun e => (⟨procedures, function.source⟩, e)) ∧
      ∀ (id j : Nat) (block : Block) (step : Step), g.blocks[id]? = some block →
        block.steps[j]? = some step → step.isCall = true →
        ∃ n first, (∃ op callee, step = .actOnTwo op callee (.immediate (Int16.ofNat n))) ∧
          g.Window id j n first ∧
          ∃ t ∈ tasks, t.expr.call?.isSome = true ∧
            t.address? = some (.temp (Int16.ofNat first)) ∧ t.stop = g.offset id + j + 1 := by
  have orderly := (orderly_of_variant (fun _ id _ => id.toNat_lt) accepted variant).orderly g
    (Array.mem_of_getElem? at_)
  obtain ⟨g0, at_0, merges, straight⟩ := origin_of_variant accepted variant at_
  have orderly0 := (orderly_of_variant (fun _ id _ => id.toNat_lt) accepted .plain).orderly g0
    (Array.mem_of_getElem? at_0)
  obtain ⟨function, tasks, d1, d2, d3, d4, declared, known, written⟩ :=
    Draft.written_of_ofForest accepted at_0
  refine ⟨function, tasks, declared, known, written.sites, ?_⟩
  intro id j block step found here isCall
  have inside := (Array.getElem?_eq_some_iff.1 here).1
  have listed : g.steps[g.offset id + j]? = some step :=
    (Graph.steps_of_block found inside).2.trans here
  -- The call was there before condensing, and its copies are there after it.
  have before : g0.steps[g.offset id + j]? = some step :=
    Listing.isCall_of_merges orderly0 merges listed isCall
  obtain ⟨t, mem, first, target, as, call⟩ := written.callTask before isCall
  have after : CallAt g.steps (g.offset id + j) first target as :=
    Listing.callAt_of_merges call.callAt merges
  have same : step = Draft.callStep target as.length :=
    Option.some.inj (listed.symm.trans after.call)
  exact ⟨as.length, first, ⟨_, _, same⟩, Graph.window_of_callAt orderly straight found inside after,
    t, mem, call.isCall, call.address, call.stop⟩

theorem windows_of_sample :
    Bundle.ofForest (.ofTable Procedure.standard) #[Crowded.text] Crowded.forest =
        .ok Crowded.bundle ∧
      Crowded.bundle.Variant Crowded.bundle.condense.bundle ∧
      ∃ g block, Crowded.bundle.condense.bundle.graphs[0]? = some g ∧
        g.blocks[0]? = some block ∧
        block.steps[3]? = some (.actOnTwo .call (.immediate 1) (.immediate 3)) ∧
        ∃ first, g.Window 0 3 3 first := by
  have call : (Crowded.bundle.condense.bundle.graphs[0]?.bind fun g =>
      g.blocks[0]?.bind fun block => block.steps[3]?) =
        some (.actOnTwo .call (.immediate 1) (.immediate 3)) := by cbv
  obtain ⟨g, at_, call⟩ := Option.bind_eq_some_iff.1 call
  obtain ⟨block, found, call⟩ := Option.bind_eq_some_iff.1 call
  obtain ⟨_, _, -, -, -, windows⟩ := windows_of_accepted Crowded.accepted .condensed at_
  obtain ⟨n, first, ⟨_, _, same⟩, window, -⟩ := windows 0 3 block _ found call rfl
  obtain rfl : n = 3 := by
    injection same with _ _ count
    rw [← Machine.toNatClampNeg_ofNat_of_small window.small]
    exact congrArg (fun a : Address => a.id.toNatClampNeg) count.symm
  exact ⟨Crowded.accepted, .condensed, g, block, at_, found, call, first, window⟩

end RegisterCode
