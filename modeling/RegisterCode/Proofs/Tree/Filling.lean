import Mathlib
import RegisterCode.Proofs.Store.Reuse
import RegisterCode.Proofs.Tree.Programs

/-!
A program that fills a list. `fill(list, n)` calls itself twice with `n - 1`, so it pushes
`2 ^ n` items (`fills`). A list may grow without a bound, but pushing answers its length, which
is a number of 32 bits. So the program fails when there are too many items, and it gets there
with few calls open at a time (`Filling.evaluated`).
-/

namespace RegisterCode

/-! ### Making a list and pushing to it -/

namespace Procedure

open Machine

variable {w : World} {id : ObjectId}

theorem perform_makeList {store : Store} (made : w.store.create? (.list #[]) = some (id, store))
    (v : Value) : makeList.perform [v] w = (.ok (.object id), { w with store := store }) := by
  have one : UInt16.ofNat [v].length = 1 := rfl
  rw [perform, one]
  simp [makeList, createSequence, answer, firstArgument, require, write, bind_apply, holding,
    world, made]

/-- The item is pushed, also when the length cannot be answered. -/
theorem perform_listPush {x : Sequence} (held : w.store.get? id = some x)
    (unfrozen : x.frozen = false) (v : Value) :
    listPush.perform [.object id, v] w =
      (if 2 * (x.size + 1) < UInt32.size then .ok (.int (Int32.ofNat (x.size + 1)))
        else .error .lengthLimit,
        { w with store := w.store.put id { x with items := x.items.push v } }) := by
  have two : UInt16.ofNat [Value.object id, v].length = 2 := rfl
  rw [perform, two, Sequence.size]
  by_cases fits : 2 * (x.items.size + 1) < UInt32.size <;>
    simp [listPush, reference, argument, firstArgument, Machine.sequence, putSequence, lengthValue,
      answer, need, require, Machine.read, write, bind_apply, holding, world, held, Sequence.push?,
      Sequence.size, unfrozen, fits]

end Procedure

namespace Filling

/-! ### The program -/

open Sample (token atom)

def text : String := "fill list n 1 list_push main make_list 0 31"

/-- `fill(list, n - 1)` -/
def again : Expr :=
  .mkCall (atom .identifier 0 4) [atom .identifier 5 9,
    .mkBinary .sub (atom .identifier 10 11) (atom .int 12 13)]

/-- `list_push(list, 1)` -/
def push : Expr := .mkCall (atom .identifier 14 23) [atom .identifier 5 9, atom .int 12 13]

/-- Unless `n` is zero, `fill(list, n)` fills the list twice with `n - 1`. If it is, one item
is pushed. -/
def fill : Declaration where
  name := "fill"
  params := ["list", "n"]
  body := .block [.ifThen (atom .identifier 10 11) (.block [.expr again, .ret again]), .ret push]
  source := text

/-- `main()` returns `fill(make_list(0), 31)`. -/
def main : Declaration where
  name := "main"
  params := []
  body := .ret (.mkCall (atom .identifier 0 4)
    [.mkCall (atom .identifier 29 38) [atom .int 39 40], atom .int 41 43])
  source := text

def forest : List SourceUnit := [
  ⟨.function (token .identifier 0 4) [token .identifier 5 9, token .identifier 10 11] fill.body,
    0⟩,
  ⟨.function (token .identifier 24 28) [] main.body, 0⟩]

def bundle : Bundle where
  graphs := #[
    ⟨#[
      ⟨#[.actOnTwo .jumpElse (.temp 1) (.immediate 0), .act .savePatch], some 1, some 2⟩,
      ⟨#[.binary (.temp 2) (.binary .sub) (.temp 1) (.constant 0), .copy (.temp 3) (.temp 0),
        .copy (.temp 4) (.temp 2), .actOnTwo .call (.immediate 0) (.immediate 2),
        .binary (.temp 5) (.binary .sub) (.temp 1) (.constant 0), .copy (.temp 6) (.temp 0),
        .copy (.temp 7) (.temp 5), .actOnTwo .call (.immediate 0) (.immediate 2),
        .actOn .ret (.temp 6)], some 2, none⟩,
      ⟨#[.act .nop, .act .patchJumpElse, .copy (.temp 8) (.temp 0), .copy (.temp 9) (.constant 0),
        .actOnTwo .nativeCall (.immediate 6) (.immediate 2), .actOn .ret (.temp 8)], none,
        none⟩], 2⟩,
    ⟨#[⟨#[.copy (.temp 0) (.constant 1), .actOnTwo .nativeCall (.immediate 4) (.immediate 1),
      .copy (.temp 1) (.temp 0), .copy (.temp 2) (.constant 2),
      .actOnTwo .call (.immediate 0) (.immediate 2), .actOn .ret (.temp 1)], none, none⟩], 0⟩]
  constants := #[.int 1, .int 0, .int 31]
  main := some 1

theorem slices : Text.slice? text 0 4 = some "fill" ∧ Text.slice? text 5 9 = some "list" ∧
    Text.slice? text 10 11 = some "n" ∧ Text.slice? text 12 13 = some "1" ∧
    Text.slice? text 14 23 = some "list_push" ∧ Text.slice? text 24 28 = some "main" ∧
    Text.slice? text 29 38 = some "make_list" ∧ Text.slice? text 39 40 = some "0" ∧
    Text.slice? text 41 43 = some "31" := by decide

theorem numbers : Text.readInt32? "1" = some 1 ∧ Text.readInt32? "0" = some 0 ∧
    Text.readInt32? "31" = some 31 := by decide

theorem procedures : (Registry.ofTable Procedure.standard).id? "fill" = none ∧
    (Registry.ofTable Procedure.standard).id? "list" = none ∧
    (Registry.ofTable Procedure.standard).id? "n" = none ∧
    (Registry.ofTable Procedure.standard).id? "list_push" = some 6 ∧
    (Registry.ofTable Procedure.standard).id? "make_list" = some 4 := by
  refine ⟨?_, ?_, ?_, by cbv, by cbv⟩ <;> exact Registry.id?_eq_none (by decide +kernel)

open Draft in
theorem accepted : Bundle.ofForest (.ofTable Procedure.standard) #[text] forest = .ok bundle := by
  simp [Bundle.ofForest, Draft.ofForest, forest, fill, main, again, push,
    SourceUnit.functionName?, SourceUnit.context, token, atom, Token.lexeme, Span.text, slices,
    numbers, procedures, Registry.contains, attempt, declare, Draft.empty, numberLimit,
    numberRange, ofDeclaration_function, ofFunction, ofParams_eq, bindParam, newTemp, bindLocal,
    enter, close, Draft.graph, bundle?, bind_apply, ofStmt, ofBlock, ofExpr, ofArgs, ofLiteral,
    ofCallee, ofName, ofCall, copyToTemp, openBranch, land, intern, lookup?, Draft.push, newBlock,
    newestBlock, linkLater, link, Expr.mkBinary, Expr.mkCall, Expr.ofToken, Expr.span, Expr.text,
    Operator.binary?, Callee.op, Callee.id, Graph.empty, Graph.addBlock, Graph.pushNewest,
    Graph.push, Graph.newest?, Graph.canLink, Graph.link, Block.push, Block.empty, Block.link,
    Block.hasRoom, bundle, Step.copy, Std.HashMap.getElem_insert, Address.immediate, Address.temp,
    Address.constant]

theorem orderly : bundle.Orderly 65536 :=
  Draft.orderly_of_ofForest (fun _ id _ => id.toNat_lt) accepted

theorem emitted : ∃ program, Program.ofBundle bundle = .ok program :=
  ⟨_, orderly.ofBundle_eq (by decide)⟩

theorem within : (bundle.chart Procedure.standard).Within 10 := by decide +kernel

theorem hygienic : Hygienic #[text] Filling.forest := by decide +kernel

theorem functions : declarations #[text] Filling.forest = [fill, main] := by
  simp [declarations, Filling.forest, fill, main, SourceUnit.declaration?, token, Token.lexeme,
    Span.text, slices]

/-! ### Its expressions -/

variable (call : Nat → List Value → World → Except Stop Value × World)

/-- What an activation of one of the functions works with. -/
def scope : Scope := ⟨Procedure.standard, [fill, main], text, call⟩

section Lexemes

variable {first last : Nat} {lexeme : String}
  (slice : Text.slice? text first last = some lexeme)

include slice

/-- A lexeme that no procedure and no function is called by is a variable. -/
theorem evaluate_name (noProcedure : (Registry.ofTable Procedure.standard).id? lexeme = none)
    (noFunction : (scope call).function? lexeme = none) :
    (scope call).evaluate (atom .identifier first last) = pure (.named lexeme) := by
  have source : (scope call).source = text := rfl
  have table : (scope call).table = Procedure.standard := rfl
  simp [Scope.evaluate, atom, Expr.ofToken, Scope.literal, token, Token.lexeme, Span.text, source,
    slice, TokenKind.value?, Scope.registry, table, Registry.contains, noProcedure, noFunction]

theorem evaluate_int {n : Int32} (number : Text.readInt32? lexeme = some n) :
    (scope call).evaluate (atom .int first last) = pure (.value (.int n)) := by
  simp [Scope.evaluate, atom, Expr.ofToken, Scope.literal, token, Token.lexeme, Span.text, scope,
    slice, TokenKind.value?, number]

theorem callExpr_eq {args : List Value} (some : args ≠ []) :
    (scope call).callExpr (atom .identifier first last) args =
      (scope call).callName lexeme args := by
  simp [Scope.callExpr, atom, Expr.ofToken, token, Token.lexeme, Span.text, scope, slice,
    Scope.passed, some]

end Lexemes

theorem evaluate_list : (scope call).evaluate (atom .identifier 5 9) = pure (.named "list") :=
  evaluate_name call (by simp only [slices]) (by simp only [procedures]) rfl

theorem evaluate_n : (scope call).evaluate (atom .identifier 10 11) = pure (.named "n") :=
  evaluate_name call (by simp only [slices]) (by simp only [procedures]) rfl

theorem evaluate_numbers :
    (scope call).evaluate (atom .int 12 13) = pure (.value (.int 1)) ∧
    (scope call).evaluate (atom .int 39 40) = pure (.value (.int 0)) ∧
    (scope call).evaluate (atom .int 41 43) = pure (.value (.int 31)) := by
  refine ⟨evaluate_int call ?_ numbers.1, evaluate_int call ?_ numbers.2.1,
    evaluate_int call ?_ numbers.2.2⟩ <;> simp only [slices]

theorem callExpr_fill (x y : Value) : (scope call).callExpr (atom .identifier 0 4) [x, y] =
    (scope call).callFunction 0 [x, y] := by
  rw [callExpr_eq call slices.1 (List.cons_ne_nil _ _)]
  simp [Scope.callName, Scope.registry, scope, procedures, Scope.function?, fill,
    List.findIdx?_cons]

theorem callExpr_push (x y : Value) : (scope call).callExpr (atom .identifier 14 23) [x, y] =
    Scope.callProcedure .listPush [x, y] := by
  have slice : Text.slice? text 14 23 = some "list_push" := by simp only [slices]
  have here : Procedure.standard[6]? = some .listPush := rfl
  rw [callExpr_eq call slice (List.cons_ne_nil _ _)]
  simp [Scope.callName, Scope.registry, scope, procedures, here]

theorem callExpr_make (x : Value) : (scope call).callExpr (atom .identifier 29 38) [x] =
    Scope.callProcedure .makeList [x] := by
  have slice : Text.slice? text 29 38 = some "make_list" := by simp only [slices]
  have here : Procedure.standard[4]? = some .makeList := rfl
  rw [callExpr_eq call slice (List.cons_ne_nil _ _)]
  simp [Scope.callName, Scope.registry, scope, procedures, here]

variable {call} {id : ObjectId} {n : Int32} {scene : Scene} {w w' w'' : World} {v : Value}
  {fault : Fault}

theorem evaluate_again (list : scene.locals "list" = some (.object id))
    (rest : scene.locals "n" = some (.int n)) :
    (scope call).evaluate again scene =
      (Reading.value <$> (scope call).callFunction 0 [.object id, .int (n - 1)]) scene := by
  have minus : BinaryOp.sub.outcome (.int n) (.int 1) = .ok (.int (n - 1)) := rfl
  simp [again, Expr.mkCall, Expr.mkBinary, Scope.evaluate, Scope.evaluateAll, evaluate_list,
    evaluate_n, evaluate_numbers, bind_apply, Scope.combine, Operator.binary?, minus, Reading.get,
    callExpr_fill, list, rest]

theorem evaluate_push (list : scene.locals "list" = some (.object id)) :
    (scope call).evaluate push scene =
      (Reading.value <$> Scope.callProcedure .listPush [.object id, .int 1]) scene := by
  simp [push, Expr.mkCall, Scope.evaluate, Scope.evaluateAll, evaluate_list, evaluate_numbers,
    bind_apply, Reading.get, callExpr_push, list]

/-! ### Its functions -/

/-- A call goes on with the world that the function leaves, and fails if the function does. -/
theorem callFunction_eq {args : List Value} (two : args.length = 2) {r : Except Stop Value}
    (called : call 0 args w = (r, w')) (locals : String → Option Value) :
    (scope call).callFunction 0 args ⟨locals, w⟩ =
      match r with
      | .ok v => .ok v ⟨locals, w'⟩
      | .error stop => .error stop ⟨locals, w'⟩ := by
  cases r <;> simp [Scope.callFunction, scope, fill, two, called]

theorem entered (id : ObjectId) (n : Int32) :
    Scope.entered fill.params [.object id, .int n] "list" = some (.object id) ∧
      Scope.entered fill.params [.object id, .int n] "n" = some (.int n) :=
  ⟨rfl, rfl⟩

theorem run_of_zero {r : Except Fault Value}
    (performed : Procedure.listPush.perform [.object id, .int 1] w = (r, w')) :
    (scope call).run fill [.object id, .int 0] w = (r.mapError .failed, w') := by
  have known := entered id 0
  rw [Scope.run]
  generalize Scope.entered fill.params [.object id, .int 0] = locals at known
  have pushed : (scope call).evaluate push ⟨locals, w⟩ = _ := evaluate_push known.1
  rw [map_apply, Scope.callProcedure, performed] at pushed
  cases r <;>
    simp [fill, Scope.perform, Scope.performAll, evaluate_n, bind_apply, Reading.get,
      Scope.decided, Value.truthy?, known, pushed, Except.mapError]

theorem run_of_failed (some : n ≠ 0)
    (first : call 0 [.object id, .int (n - 1)] w = (.error (.failed fault), w')) :
    (scope call).run fill [.object id, .int n] w = (.error (.failed fault), w') := by
  have known := entered id n
  rw [Scope.run]
  generalize Scope.entered fill.params [.object id, .int n] = locals at known
  have once : (scope call).evaluate again ⟨locals, w⟩ = _ := evaluate_again known.1 known.2
  rw [map_apply, callFunction_eq rfl first locals] at once
  simp [fill, Scope.perform, Scope.performAll, evaluate_n, bind_apply, Reading.get, Scope.decided,
    Value.truthy?, known, once, some]

/-- If the first of the two calls returns, the second decides. -/
theorem run_of_ok (some : n ≠ 0) (first : call 0 [.object id, .int (n - 1)] w = (.ok v, w'))
    {r : Except Fault Value}
    (second : call 0 [.object id, .int (n - 1)] w' = (r.mapError .failed, w'')) :
    (scope call).run fill [.object id, .int n] w = (r.mapError .failed, w'') := by
  have known := entered id n
  rw [Scope.run]
  generalize Scope.entered fill.params [.object id, .int n] = locals at known
  have once : (scope call).evaluate again ⟨locals, w⟩ = _ := evaluate_again known.1 known.2
  have twice : (scope call).evaluate again ⟨locals, w'⟩ = _ := evaluate_again known.1 known.2
  rw [map_apply, callFunction_eq rfl first locals] at once
  rw [map_apply, callFunction_eq rfl second locals] at twice
  cases r <;>
    simp [fill, Scope.perform, Scope.performAll, evaluate_n, bind_apply, Reading.get,
      Scope.decided, Value.truthy?, known, once, twice, some, Except.mapError]

theorem run_main (made : Procedure.makeList.perform [.int 0] w = (.ok (.object id), w'))
    (called : call 0 [.object id, .int 31] w' = (.error (.failed fault), w'')) :
    (scope call).run main [] w = (.error (.failed fault), w'') := by
  have failed := callFunction_eq rfl called (Scope.entered main.params [])
  rw [Scope.run]
  generalize Scope.entered main.params [] = locals at failed
  have created : Scope.callProcedure .makeList [.int 0] ⟨locals, w⟩ =
      .ok (.object id) ⟨locals, w'⟩ := by
    simp [Scope.callProcedure, made]
  simp [main, Expr.mkCall, Scope.perform, Scope.evaluate, Scope.evaluateAll, evaluate_numbers,
    callExpr_make, callExpr_fill, bind_apply, map_apply, Reading.get, created, failed]

/-! ### How the list grows -/

/-- The reference leads to a list of `k` items. -/
def Holds (id : ObjectId) (k : Nat) (w : World) : Prop :=
  ∃ x, w.store.get? id = some x ∧ x.frozen = false ∧ x.size = k

theorem Holds.push {k : Nat} (h : Holds id k w) (v : Value) :
    ∃ w', Holds id (k + 1) w' ∧ Procedure.listPush.perform [.object id, v] w =
      (if 2 * (k + 1) < UInt32.size then .ok (.int (Int32.ofNat (k + 1)))
        else .error .lengthLimit, w') := by
  obtain ⟨x, held, unfrozen, rfl⟩ := h
  refine ⟨_, ⟨{ x with items := x.items.push v }, ?_, unfrozen, ?_⟩,
    Procedure.perform_listPush held unfrozen v⟩
  · exact Store.get?_put (Store.isLive_of_get? held) _
  · simp [Sequence.size]

/-- What pushing so many items to a list of `k` comes to: it holds them all, or its length
does not fit a number any more. -/
def Fills (id : ObjectId) (k more : Nat) (r : Except Stop Value × World) : Prop :=
  if 2 * (k + more) < UInt32.size then ∃ v w, r = (.ok v, w) ∧ Holds id (k + more) w
  else ∃ w, r = (.error (.failed .lengthLimit), w)

namespace Fills

variable {k more : Nat} {r : Except Stop Value × World}

theorem ok (h : Fills id k more r) (fits : 2 * (k + more) < UInt32.size) :
    ∃ v w, r = (.ok v, w) ∧ Holds id (k + more) w := by
  rwa [Fills, if_pos fits] at h

theorem failed (h : Fills id k more r) (beyond : UInt32.size ≤ 2 * (k + more)) :
    ∃ w, r = (.error (.failed .lengthLimit), w) := by
  rwa [Fills, if_neg (Nat.not_lt.2 beyond)] at h

end Fills

/-- A number that is counted down. -/
theorem count_down {n : Nat} (small : 2 * (n + 1) < UInt32.size) :
    Int32.ofNat (n + 1) ≠ 0 ∧ Int32.ofNat (n + 1) - 1 = Int32.ofNat n := by
  constructor
  · intro zero
    have value := congrArg Int32.toInt zero
    rw [Int32.toInt_ofNat_of_lt (by simp only [UInt32.size] at small; omega)] at value
    cases value
  · rw [Int32.ofNat_add]
    exact Int32.add_sub_cancel _ _

/-- Filling with `n` pushes `2 ^ n` items, with no more than `n + 1` calls open. The induction
is on `n`: the second of the two calls goes on with what the first one left. -/
theorem fills {n : Nat} (small : 2 * n < UInt32.size) {k : Nat} (holds : Holds id k w) :
    Fills id k (2 ^ n) (evaluateCall Procedure.standard [fill, main] (n + 1) 0
      [.object id, .int (Int32.ofNat n)] w) := by
  induction n generalizing k w with
  | zero =>
      obtain ⟨w', holds', performed⟩ := holds.push (.int 1)
      show Fills id k 1 ((scope _).run fill _ w)
      rw [Fills]
      split_ifs with fits
      · rw [if_pos fits] at performed
        exact ⟨_, w', run_of_zero performed, holds'⟩
      · rw [if_neg fits] at performed
        exact ⟨w', run_of_zero performed⟩
  | succ n ih =>
      obtain ⟨some, minus⟩ := count_down small
      have again : ∀ {k w}, Holds id k w → Fills id k (2 ^ n) (evaluateCall Procedure.standard
          [fill, main] (n + 1) 0 [.object id, .int (Int32.ofNat (n + 1) - 1)] w) :=
        fun holds => minus ▸ ih (by omega) holds
      show Fills id k (2 ^ (n + 1)) ((scope _).run fill _ w)
      rw [Nat.pow_succ, Nat.mul_two]
      generalize 2 ^ n = half at again ⊢
      rw [Fills, ← Nat.add_assoc]
      by_cases fits : 2 * (k + half) < UInt32.size
      · obtain ⟨v, w', first, holds'⟩ := (again holds).ok fits
        split_ifs with fits'
        · obtain ⟨v', w'', second, holds''⟩ := (again holds').ok fits'
          exact ⟨v', w'', run_of_ok some first (r := .ok v') second, holds''⟩
        · obtain ⟨w'', second⟩ := (again holds').failed (Nat.not_lt.1 fits')
          exact ⟨w'', run_of_ok some first (r := .error .lengthLimit) second⟩
      · obtain ⟨w', first⟩ := (again holds).failed (Nat.not_lt.1 fits)
        rw [if_neg (by omega)]
        exact ⟨w', run_of_failed some first⟩

/-- The program fails when it pushes item `2 ^ 31`. -/
theorem evaluated (new : w.store = .empty) :
    ∃ w', evaluateForest Procedure.standard (declarations #[text] Filling.forest) 33 w =
      some (.error (.failed .lengthLimit), w') := by
  have start : mainFunction? [fill, main] = some 1 := by decide +kernel
  have made : w.store.create? (.list #[]) =
      some (0, ⟨#[some (.list #[])], [], Sequence.unit⟩) := by
    rw [new]
    rfl
  have holds : Holds 0 0 { w with store := ⟨#[some (.list #[])], [], Sequence.unit⟩ } :=
    ⟨_, rfl, rfl, rfl⟩
  obtain ⟨w', called⟩ := (fills (n := 31) (by decide) holds).failed (by decide)
  rw [functions, evaluateForest, start]
  refine ⟨w', congrArg some ?_⟩
  exact run_main (Procedure.perform_makeList made (.int 0)) called

end Filling

end RegisterCode
