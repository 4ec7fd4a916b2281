import RegisterCode.Proofs.Code.Arrival

/-!
What compiled code does not depend on. A function finds registers above the top it is entered
with, and in them whatever was left there. As long as no instruction names one of them as an
operand before it is written, what the function does is the same whatever they hold: neither
what is pushed and popped, nor the windows of calls, nor the returns ever make up for it.
-/

namespace RegisterCode

namespace Machine

/-- After so many steps it is known what is in the registers that were in use at the beginning,
and in those that an instruction has written in its frame since. -/
def settled (s : Setting) (m : Machine) (k : Nat) : Set Nat :=
  { r | r < m.top ∨ ∃ j < k, ∃ n i, (m.afterSteps s j).attempt s = .done n ∧
    s.program.fetch? (m.afterSteps s j).func (m.afterSteps s j).place = some i ∧
    r ∈ (m.afterSteps s j).touched i }

/-- The instruction after so many steps names no register as an operand but those of which it is
known what is in them. -/
def Grounded (s : Setting) (m : Machine) (k : Nat) : Prop :=
  (m.afterSteps s k).isRunning = true → ∀ i : Instruction,
    s.program.fetch? (m.afterSteps s k).func (m.afterSteps s k).place = some i →
    ∀ offset ∈ i.sources, (m.afterSteps s k).base + offset ∈ m.settled s k

variable {s : Setting} {ledgers : Nat → Ledger} {m m' : Machine} {k : Nat}

theorem settled_mono (s : Setting) (m : Machine) {j k : Nat} (le : j ≤ k) :
    m.settled s j ⊆ m.settled s k := by
  rintro r (low | ⟨i, lt, touched⟩)
  · exact .inl low
  · exact .inr ⟨i, Nat.lt_of_lt_of_le lt le, touched⟩

theorem settled_zero (s : Setting) (m : Machine) : m.settled s 0 = { r | r < m.top } := by
  ext r
  simp [settled]

theorem settled_succ {n : Machine} {i : Instruction} (done : (m.afterSteps s k).attempt s = .done n)
    (fetched : s.program.fetch? (m.afterSteps s k).func (m.afterSteps s k).place = some i) :
    m.settled s (k + 1) = m.settled s k ∪ (m.afterSteps s k).touched i := by
  ext r
  constructor
  · rintro (low | ⟨j, lt, n', i', done', fetched', touched⟩)
    · exact .inl (.inl low)
    · rcases Nat.lt_succ_iff_lt_or_eq.1 lt with lt | rfl
      · exact .inl (.inr ⟨j, lt, n', i', done', fetched', touched⟩)
      · cases fetched.symm.trans fetched'
        exact .inr touched
  · rintro (settled | touched)
    · exact settled_mono s m (Nat.le_succ k) settled
    · exact .inr ⟨k, Nat.lt_succ_self k, n, i, done, fetched, touched⟩

/-- What a call hands on is known. -/
theorem Enters.window_settled (ruled : s.program.Ruled ledgers) (lawful : s.Lawful)
    (enters : Enters s m) (deep : ∀ j ≤ k, m.depth ≤ (m.afterSteps s j).depth)
    (running : (m.afterSteps s k).isRunning = true) {i : Instruction} {c : Nat}
    (fetched : s.program.fetch? (m.afterSteps s k).func (m.afterSteps s k).place = some i)
    (arguments : i.arguments? = some c)
    (tidy : Tidy s ledgers m.callers (m.settled s k) (m.afterSteps s k)) :
    ∀ r < (m.afterSteps s k).top, (m.afterSteps s k).top ≤ r + c → r ∈ m.settled s k := by
  intro r lt ge
  obtain ⟨other, window, held⟩ := ((ruled _).allows _ _ fetched).window arguments
  obtain ⟨-, last⟩ := enters.tidy_afterSteps ruled lawful k deep running
  have filled := (enters.came_of_last last).filled window fetched other
  obtain ⟨-, low, high⟩ := tidy.levels
  rw [held] at low high
  have room := window.room
  have small := window.small
  by_cases below : r < entryTop (m.afterSteps s k).callers
  · exact tidy.grounded r (by omega) below
  · -- The register is one of those that the arguments were copied to.
    obtain ⟨q, rfl⟩ : ∃ q, r = (m.afterSteps s k).base +
        ((ledgers (m.afterSteps s k).func).room (m.afterSteps s k).place - c + q) :=
      ⟨r - ((m.afterSteps s k).base +
        ((ledgers (m.afterSteps s k).func).room (m.afterSteps s k).place - c)), by omega⟩
    have lt : q < c := by omega
    obtain ⟨past, -, -, base, -⟩ :=
      enters.turn ruled lawful deep running fetched arguments (Nat.le_of_lt lt)
    obtain ⟨src, v, -, copy, -⟩ := enters.moved ruled lawful deep running fetched arguments lt
    obtain ⟨-, last⟩ := enters.tidy_afterSteps ruled lawful (k - c + q + 1)
      (fun j le => deep j (by omega)) (isRunning_afterSteps running (by omega))
    refine .inr ⟨k - c + q, by omega, _, _, (last _ rfl).1, copy, ?_⟩
    rw [touched_mov (by omega), base]
    exact Set.mem_singleton _

/-- Two runs after as many steps. They are at the same place and have done the same; and as long
as nothing has failed, they hold the same where it is known what they hold. -/
structure Paired (s : Setting) (ledgers : Nat → Ledger) (m m' : Machine) (k : Nat) : Prop where
  alike : AgreeOn ∅ (m.afterSteps s k) (m'.afterSteps s k)
  agree : (m.afterSteps s k).status = .ok →
    AgreeOn (m.settled s k) (m.afterSteps s k) (m'.afterSteps s k)
  tidy : (m.afterSteps s k).isRunning = true → m.depth ≤ (m.afterSteps s k).depth →
    Tidy s ledgers m.callers (m.settled s k) (m.afterSteps s k)

theorem afterSteps_succ {outcome : Outcome} (attempted : (m.afterSteps s k).attempt s = outcome) :
    m.afterSteps s (k + 1) = outcome.settle.2 := by
  rw [afterSteps, step, attempted]

/-- The step after which the limit of a run is reached. -/
theorem afterSteps_of_exhausted {limit : Nat} (running : (m.afterSteps s k).isRunning = true)
    (reached : (m.afterSteps s k).reachedLimit? s.limits = some limit) :
    m.afterSteps s (k + 1) = { m.afterSteps s k with status := .anyError } := by
  have attempted : (m.afterSteps s k).attempt s = .exhausted limit (m.afterSteps s k) := by
    simp only [attempt, running, reached, if_true]
  exact afterSteps_succ attempted

/-- The step with which a run leaves the code. -/
theorem afterSteps_of_endOfCode (running : (m.afterSteps s k).isRunning = true)
    (below : (m.afterSteps s k).reachedLimit? s.limits = none)
    (fetched : s.program.fetch? (m.afterSteps s k).func (m.afterSteps s k).place = none) :
    m.afterSteps s (k + 1) =
      { (m.afterSteps s k).started with status := Fault.endOfCode.status } := by
  have attempted : (m.afterSteps s k).attempt s =
      .failed .endOfCode (m.afterSteps s k).started := by
    simp only [attempt, running, below, if_true, fetched]
    rfl
  exact afterSteps_succ attempted

/-- Two runs end with the same status, and it is not that all is well. -/
theorem Paired.of_status {status : Status} {n n' : Machine} (bad : status ≠ .ok)
    (alike : AgreeOn ∅ n n') (after : m.afterSteps s (k + 1) = { n with status := status })
    (after' : m'.afterSteps s (k + 1) = { n' with status := status }) :
    Paired s ledgers m m' (k + 1) := by
  refine ⟨?_, fun fine => ?_, fun running => ?_⟩
  · rw [after, after']
    exact alike.map (fun n => { n with status := status }) fun _ _ => rfl
  · rw [after] at fine
    exact absurd fine bad
  · rw [after] at running
    exact absurd (isRunning_iff.1 running).2.2 bad

/-- A run that is over stays where it is. -/
theorem Paired.of_stopped (paired : Paired s ledgers m m' k)
    (stopped : (m.afterSteps s k).isRunning = false)
    (stopped' : (m'.afterSteps s k).isRunning = false) : Paired s ledgers m m' (k + 1) := by
  have ended : (m.afterSteps s k).attempt s = .ended (m.afterSteps s k) := by
    rw [attempt, stopped]
    rfl
  have ended' : (m'.afterSteps s k).attempt s = .ended (m'.afterSteps s k) := by
    rw [attempt, stopped']
    rfl
  have after : m.afterSteps s (k + 1) = m.afterSteps s k := afterSteps_succ ended
  have after' : m'.afterSteps s (k + 1) = m'.afterSteps s k := afterSteps_succ ended'
  have settled : m.settled s (k + 1) ⊆ m.settled s k := by
    rintro r (low | ⟨j, lt, n, i, done, touched⟩)
    · exact .inl low
    · rcases Nat.lt_succ_iff_lt_or_eq.1 lt with lt | rfl
      · exact .inr ⟨j, lt, n, i, done, touched⟩
      · cases ended.symm.trans done
  refine ⟨?_, fun fine => ?_, fun running => ?_⟩
  · rw [after, after']
    exact paired.alike
  · rw [after] at fine
    rw [after, after']
    exact (paired.agree fine).mono settled
  · rw [after, stopped] at running
    cases running

/-- Each step keeps two runs together. -/
theorem Paired.step (ruled : s.program.Ruled ledgers) (lawful : s.Lawful) (enters : Enters s m)
    (deep : ∀ j ≤ k, m.depth ≤ (m.afterSteps s j).depth) (grounded : m.Grounded s k)
    (paired : Paired s ledgers m m' k) : Paired s ledgers m m' (k + 1) := by
  have framed := afterSteps_framed lawful.isConfined enters.framed k
  have running' : (m'.afterSteps s k).isRunning = (m.afterSteps s k).isRunning := by
    rw [paired.alike.same]
    rfl
  have limit : (m'.afterSteps s k).reachedLimit? s.limits =
      (m.afterSteps s k).reachedLimit? s.limits := by
    rw [paired.alike.same]
    rfl
  have fetch : s.program.fetch? (m'.afterSteps s k).func (m'.afterSteps s k).place =
      s.program.fetch? (m.afterSteps s k).func (m.afterSteps s k).place := by
    rw [paired.alike.func, paired.alike.place]
  cases running : (m.afterSteps s k).isRunning with
  | false => exact paired.of_stopped running (running'.trans running)
  | true =>
      rw [running] at running'
      obtain ⟨-, opened, fine⟩ := isRunning_iff.1 running
      cases below : (m.afterSteps s k).reachedLimit? s.limits with
      | some limit' =>
          rw [below] at limit
          exact .of_status (by decide) paired.alike (afterSteps_of_exhausted running below)
            (afterSteps_of_exhausted running' limit)
      | none =>
          rw [below] at limit
          cases fetched : s.program.fetch? (m.afterSteps s k).func (m.afterSteps s k).place with
          | none =>
              rw [fetched] at fetch
              exact .of_status (by decide) paired.alike.started
                (afterSteps_of_endOfCode running below fetched)
                (afterSteps_of_endOfCode running' limit fetch)
          | some i =>
              rw [fetched] at fetch
              have attempt := Tracked.attempt_of_fetch (x := ⟨m.afterSteps s k, [], 0⟩)
                running below fetched
              have attempt' := Tracked.attempt_of_fetch (x := ⟨m'.afterSteps s k, [], 0⟩)
                running' limit fetch
              have tidy := paired.tidy running (deep k (Nat.le_refl k))
              obtain ⟨-, last⟩ := enters.tidy_afterSteps ruled lawful k deep running
              have reads : Reads (m.settled s k) (m.afterSteps s k) i :=
                ⟨grounded running i fetched, fun c arguments =>
                  enters.window_settled ruled lawful deep running fetched arguments tidy⟩
              rcases tidy.goesOn ruled lawful framed opened (paired.agree fine) fetched
                (fun c => room_of_came ruled (enters.came_of_last last) i c fetched) reads with
                ⟨fault, n, n', bad, error, error', alike⟩ | ⟨n, n', ok, ok', agree, tidy'⟩
              · rw [error] at attempt
                rw [error'] at attempt'
                exact .of_status bad alike (afterSteps_succ attempt) (afterSteps_succ attempt')
              · rw [ok] at attempt
                rw [ok'] at attempt'
                have after : m.afterSteps s (k + 1) = n := afterSteps_succ attempt
                have after' : m'.afterSteps s (k + 1) = n' := afterSteps_succ attempt'
                rw [← settled_succ attempt fetched] at agree tidy'
                refine ⟨?_, fun _ => ?_, fun _ deep => ?_⟩
                · rw [after, after']
                  exact agree.mono (Set.empty_subset _)
                · rw [after, after']
                  exact agree
                · rw [after] at deep ⊢
                  rw [← length_callers] at deep
                  exact (tidy' deep).1

theorem Paired.zero (ruled : s.program.Ruled ledgers) (enters : Enters s m)
    (agree : AgreeOn { r | r < m.top } m m') : Paired s ledgers m m' 0 := by
  refine ⟨agree.mono (Set.empty_subset _), fun _ => ?_, fun _ _ => ?_⟩
  · rw [settled_zero]
    exact agree
  · rw [settled_zero]
    exact enters.tidy ruled subset_rfl

/-- As long as the first run names no register as an operand of which it is not known what is in
it, and the function has not returned, the runs stay together. -/
theorem Enters.paired (ruled : s.program.Ruled ledgers) (lawful : s.Lawful) (enters : Enters s m)
    (agree : AgreeOn { r | r < m.top } m m') (k : Nat)
    (deep : ∀ j < k, m.depth ≤ (m.afterSteps s j).depth) (grounded : ∀ j < k, m.Grounded s j) :
    Paired s ledgers m m' k := by
  induction k with
  | zero => exact .zero ruled enters agree
  | succ k ih =>
      have before := ih (fun j lt => deep j (Nat.lt_succ_of_lt lt))
        fun j lt => grounded j (Nat.lt_succ_of_lt lt)
      exact before.step ruled lawful enters (fun j le => deep j (Nat.lt_succ_of_le le))
        (grounded k (Nat.lt_succ_self k))

/-- A call of a function enters it. -/
theorem enters_call {before : Machine} {func argc : Nat} (framed : Framed s.limits before)
    (status : before.status = .ok) (called : call s func argc before = .ok () m) :
    Enters s m := by
  obtain ⟨callable, rfl⟩ := call_ok called
  refine ⟨framed.called callable status, rfl, ?_⟩
  have callers : (before.called func argc).callers = before.kept :: before.callers :=
    toList_push_reverse _ _
  rw [callers]
  rfl

end Machine

open Machine in
/-- Take two machines behind a call of a function of a forest that is accepted, condensed or not,
which differ only in what is in registers at or above the top. Until the function returns they
do the same step by step, if none of the instructions executed names as an operand a register
that was at or above the top then and that no instruction has written since: they have the same
status, store, input and output, they make the same calls with the same arguments, and they return
the same value. -/
theorem independence_of_accepted {procedures : Registry} {sources : Array String}
    {forest : List SourceUnit} {b b' : Bundle}
    (accepted : Bundle.ofForest procedures sources forest = .ok b)
    (variant : b.Variant b') {program : Program} (emitted : Program.ofBundle b' = .ok program)
    {table : Array Procedure} (lawful : ∀ p ∈ table, p.Lawful) (limits : Limits) :
    let s : Setting := ⟨limits, program, table⟩
    ∀ (func argc : Nat) (before m m' : Machine), Framed limits before → before.status = .ok →
      0 < argc → Machine.call s func argc before = .ok () m → AgreeOn { r | r < m.top } m m' →
      ∀ k, (∀ j < k, m.depth ≤ (m.afterSteps s j).depth) → (∀ j < k, m.Grounded s j) →
        let n := m.afterSteps s k
        let n' := m'.afterSteps s k
        n' = n.refilled n'.registers ∧
        (n.status = .ok → n'.registers[m.base]? = n.registers[m.base]?) ∧
        (n.isRunning = true → m.depth ≤ n.depth → ∀ (i : Instruction) (c : Nat),
          program.fetch? n.func n.place = some i → i.arguments? = some c →
            ∀ r < n.top, n.top ≤ r + c → n'.registers[r]? = n.registers[r]?) := by
  intro s func argc before m m' framed status some called agree k deep grounded n n'
  have orderly : b'.Orderly 65536 :=
    orderly_of_variant (fun _ id _ => id.toNat_lt) accepted variant
  have ruled : s.program.Ruled b'.ledgers := orderly.ruled emitted
  have lawful : s.Lawful := lawful
  have enters : Enters s m := enters_call framed status called
  have paired := enters.paired ruled lawful agree k deep grounded
  refine ⟨paired.alike.same, fun fine => ?_, fun running still i c fetched arguments r lt ge => ?_⟩
  · obtain ⟨callable, rfl⟩ := call_ok called
    have argc_le := callable.argc_le
    refine (paired.agree fine).agree _ (.inl ?_)
    show before.top - argc < before.top
    omega
  · have deep (j : Nat) (le : j ≤ k) : m.depth ≤ (m.afterSteps s j).depth := by
      rcases Nat.lt_or_eq_of_le le with lt | rfl
      · exact deep j lt
      · exact still
    have settled := enters.window_settled ruled lawful deep running fetched arguments
      (paired.tidy running still) r lt ge
    exact (paired.agree (isRunning_iff.1 running).2.2).agree r settled

open Machine in
theorem independence_of_sample :
    let s : Setting := ⟨⟨8, 4, 2, none⟩, Sample.program, Procedure.standard⟩
    let before : Machine := ((initial s.limits []).begin s).afterSteps s 1
    let m : Machine := before.called 0 1
    let m' : Machine := m.refilled (m.registers.setIfInBounds 5 (.int 9))
    Machine.call s 0 1 before = .ok () m ∧ m'.registers[5]? ≠ m.registers[5]? ∧
      (m.afterSteps s 5).depth < m.depth ∧
      (m'.afterSteps s 5).registers[m.base]? = (m.afterSteps s 5).registers[m.base]? := by
  intro s before m m'
  have framed : Framed s.limits before :=
    afterSteps_framed (fun p mem => (Procedure.standard_lawful p mem).confined)
      (begin_framed s _) 1
  have callable : Callable s 0 1 before := by constructor <;> decide +kernel
  have called := call_of_callable callable
  have top : m.top = 1 := by decide +kernel
  have above : 5 ∉ { r | r < m.top } := by
    rw [top]
    exact Nat.not_lt.2 (by decide)
  have agree : AgreeOn { r | r < m.top } m m' := .overwritten m above _
  have sources : ∀ j < 5, ∀ i ∈ s.program.fetch? (m.afterSteps s j).func (m.afterSteps s j).place,
      ∀ offset ∈ i.sources, (m.afterSteps s j).base + offset = 0 ∨
        j = 4 ∧ (m.afterSteps s j).base + offset = 1 := by
    decide +kernel
  have stored : 1 ∈ m.settled s 4 := by
    have goes : (match (m.afterSteps s 3).attempt s with
      | .done _ => true
      | _ => false) = true := by decide +kernel
    split at goes
    · refine .inr ⟨3, by decide, _, .make .mov [.register 1, .stack], ‹_›, by decide +kernel, ?_⟩
      show (touching _ _).map _ = some 1
      decide +kernel
    · cases goes
  have grounded : ∀ j < 5, m.Grounded s j := by
    intro j lt _ i fetched offset mem
    rcases sources j lt i fetched offset mem with low | ⟨rfl, high⟩
    · rw [low]
      exact .inl (top ▸ Nat.one_pos)
    · rw [high]
      exact stored
  obtain ⟨-, value, -⟩ := independence_of_accepted Sample.accepted .plain Sample.emitted
    Procedure.standard_lawful s.limits 0 1 before m m' framed (by decide +kernel) Nat.one_pos called
    agree 5 (by decide +kernel) grounded
  exact ⟨called, by decide +kernel, by decide +kernel, value (by decide +kernel)⟩

/-! ### A local that was not defined -/

namespace Undefined

open Sample

def text : String := "main f false u 3 x 4"

/-- `main()` calls `f()`. -/
def main : Stmt :=
  .function (token .identifier 0 4) [] (.block [.expr (.mkCall (atom .identifier 5 6) [])])

/-- `f()` defines `x` in a branch that is never taken, and returns it. -/
def f : Stmt :=
  .function (token .identifier 5 6) [] (.block [
    .ifThen (atom .false 7 12) (.block [.define (token .identifier 13 14) (atom .int 15 16),
      .define (token .identifier 17 18) (atom .int 19 20)]),
    .ret (atom .identifier 17 18)])

def forest : List SourceUnit := [⟨main, 0⟩, ⟨f, 0⟩]

def bundle : Bundle where
  graphs := #[
    ⟨#[⟨#[.copy (.temp 0) (.immediate 0), .actOnTwo .call (.immediate 1) (.immediate 1)], none,
      none⟩], 0⟩,
    ⟨#[
      ⟨#[.actOnTwo .jumpElse (.constant 0) (.immediate 0), .act .savePatch], some 1, some 2⟩,
      ⟨#[.copy (.temp 0) (.constant 1), .copy (.temp 1) (.constant 2)], some 2, none⟩,
      ⟨#[.act .nop, .act .patchJumpElse, .actOn .ret (.temp 1)], none, none⟩], 0⟩]
  constants := #[.bool false, .int 3, .int 4]
  main := some 0

def program : Program where
  chunks := #[
    #[.make .mov [.register 0, .immediate 0], .make .call [.immediate 1, .immediate 1]],
    #[.make .jumpElse [.constant 0, .immediate 3], .make .mov [.register 0, .constant 1],
      .make .mov [.register 1, .constant 2], .make .nop [], .make .ret [.register 1]]]
  constants := bundle.constants
  entry := some 0

theorem slices : Text.slice? text 0 4 = some "main" ∧ Text.slice? text 5 6 = some "f" ∧
    Text.slice? text 7 12 = some "false" ∧ Text.slice? text 13 14 = some "u" ∧
    Text.slice? text 15 16 = some "3" ∧ Text.slice? text 17 18 = some "x" ∧
    Text.slice? text 19 20 = some "4" := by decide

theorem numbers : Text.readInt32? "3" = some 3 ∧ Text.readInt32? "4" = some 4 := by decide

theorem procedures : (Registry.ofTable Procedure.standard).id? "f" = none ∧
    (Registry.ofTable Procedure.standard).id? "u" = none ∧
    (Registry.ofTable Procedure.standard).id? "x" = none := by
  refine ⟨?_, ?_, ?_⟩ <;> exact Registry.id?_eq_none (by decide +kernel)

open Draft in
theorem accepted : Bundle.ofForest (.ofTable Procedure.standard) #[text] forest = .ok bundle := by
  simp [Bundle.ofForest, Draft.ofForest, forest, main, f, SourceUnit.functionName?,
    SourceUnit.context, token, atom, Token.lexeme, Span.text, slices, numbers, procedures,
    Registry.contains, Draft.attempt, declare, Draft.empty, numberLimit, numberRange,
    ofDeclaration_function, ofFunction, ofParams_eq, newTemp, bindLocal, Draft.enter, close,
    Draft.graph, bundle?, bind_apply, ofStmt, ofBlock, ofExpr, ofArgs, ofLiteral, ofDefinition,
    ofCallee, ofName, ofCall, copyToTemp, openBranch, land, intern, lookup?, Draft.push, newBlock,
    newestBlock, linkLater, link, Expr.mkCall, Expr.ofToken, Expr.span, Expr.text, Callee.op,
    Callee.id, Graph.empty, Graph.addBlock, Graph.pushNewest, Graph.push, Graph.newest?,
    Graph.canLink, Graph.link, Block.push, Block.empty, Block.link, Block.hasRoom, bundle,
    Step.copy, Address.immediate, Address.temp, Address.constant]

theorem emitted : Program.ofBundle bundle = .ok program := by
  have orderly : bundle.Orderly 65536 :=
    Draft.orderly_of_ofForest (fun _ id _ => id.toNat_lt) accepted
  rw [orderly.ofBundle_eq (by decide)]
  decide +kernel

end Undefined

open Machine in
/-- What a function returns may depend on what was left in the registers. `f` returns `x`, which
has the register above the top, and has not been written. -/
theorem dependence_of_undefined :
    let s : Setting := ⟨⟨8, 4, 2, none⟩, Undefined.program, Procedure.standard⟩
    let before : Machine := ((initial s.limits []).begin s).afterSteps s 1
    let m : Machine := before.called 1 1
    let m' : Machine := m.refilled (m.registers.setIfInBounds 1 (.int 9))
    Bundle.ofForest (.ofTable Procedure.standard) #[Undefined.text] Undefined.forest =
      .ok Undefined.bundle ∧
    Program.ofBundle Undefined.bundle = .ok Undefined.program ∧
    Framed s.limits before ∧ before.status = .ok ∧ Machine.call s 1 1 before = .ok () m ∧
    AgreeOn { r | r < m.top } m m' ∧ (∀ j < 3, m.depth ≤ (m.afterSteps s j).depth) ∧
    (m.afterSteps s 3).depth < m.depth ∧ (m.afterSteps s 3).status = .ok ∧
    (m.afterSteps s 3).registers[m.base]? = some .dud ∧
    (m'.afterSteps s 3).registers[m.base]? = some (.int 9) := by
  intro s before m m'
  have framed : Framed s.limits before :=
    afterSteps_framed (fun p mem => (Procedure.standard_lawful p mem).confined)
      (begin_framed s _) 1
  have callable : Callable s 1 1 before := by constructor <;> decide +kernel
  have top : m.top = 1 := by decide +kernel
  have above : 1 ∉ { r | r < m.top } := Nat.not_lt.2 (Nat.le_of_eq top)
  have agree : AgreeOn { r | r < m.top } m m' := .overwritten m above _
  refine ⟨Undefined.accepted, Undefined.emitted, framed, ?_, call_of_callable callable, agree,
    ?_, ?_, ?_, ?_, ?_⟩ <;> decide +kernel

end RegisterCode
