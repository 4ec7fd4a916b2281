import RegisterCode.Proofs.Machine.Counting
import RegisterCode.Proofs.Machine.Isolation
import RegisterCode.Proofs.Machine.Sequences

/-!
The store of a running machine. Only calls of procedures touch it (`dispatch_detached`), and a step
changes it as one procedure can, which leaves frozen objects alone. So a tuple keeps its items as
long as it is there, and what a procedure on sequences does is told by the objects that are seen
before and after. The main statement is `sequences_of_attainable`.
-/

namespace RegisterCode

namespace Machine

open Procedure

/-! ### The store of a running machine -/

/-- The store is as it was. -/
def SameStore (m n : Machine) : Prop := n.store = m.store

instance : Composes SameStore := ⟨fun _ => rfl, fun h h' => Eq.trans h' h⟩

theorem Detached.sameStore {m n : Machine} (h : Detached m n) : SameStore m n :=
  congrArg World.store h.world

section

variable {count : UInt16}

theorem answer_sameStore (v : Value) : KeepsTo SameStore (answer v count) :=
  .bind (require_keeps _ _) fun _ =>
    .bind firstArgument_keeps fun first m => (write_detached first v m).sameStore

theorem readLine_sameStore : KeepsTo SameStore readLine := by
  intro m
  unfold leaves readLine
  dsimp only
  cases String.fromUTF8? ⟨(m.input.takeWhile (· ≠ 10)).toArray⟩ <;> rfl

theorem print_sameStore : KeepsTo SameStore (print.run count) := by
  refine .bind (argument_keeps 0) fun v => ?_
  split
  · refine .get_then fun m => ?_
    split <;> exact .modify fun _ => rfl
  · exact .modify fun _ => rfl

/-- A procedure that reads a line and answers with what it says. -/
theorem prompt_sameStore (v : String → Value) :
    KeepsTo SameStore (readLine >>= fun line => answer (v line) count) :=
  .bind readLine_sameStore fun line => answer_sameStore (v line)

end

theorem Leftover.changed {count : UInt16} {m : Machine} {p : Procedure} {store : Store}
    (h : Leftover count m p store) : m.store.Changed store := by
  cases h with
  | list nowhere created => exact .created created
  | tuple none created => exact .created created
  | item target new held pushed long =>
      refine .replaced held fun frozen => ?_
      cases frozen.symm.trans (items_of_push? pushed).1

/-- Whether it succeeds or fails, a standard procedure does no more to the store than that. -/
theorem changed_of_run {count : UInt16} {m : Machine} {p : Procedure} (known : p ∈ standard)
    (seated : m.Seated) : m.store.Changed (leaves (p.run count) m).store := by
  cases run : p.run count m with
  | error fault n =>
      rw [leaves_of_error run]
      cases standard_failure known seated run with
      | clean => exact .same
      | line => exact .same
      | leftover left => exact left.changed
  | ok _ n =>
      have idle (same : KeepsTo SameStore (p.run count)) :
          m.store.Changed (leaves (p.run count) m).store := by
        rw [same m]
        exact .same
      simp only [standard, List.mem_toArray, List.mem_cons, List.not_mem_nil, or_false] at known
      rcases known with rfl | rfl | rfl | listed
      · exact idle print_sameStore
      · exact idle (prompt_sameStore _)
      · exact idle (prompt_sameStore _)
      · have listed : p ∈ onSequences := by
          simpa only [onSequences, List.mem_cons, List.not_mem_nil, or_false] using listed
        rw [leaves_of_ok run]
        obtain ⟨v, store, -, rfl, acted⟩ := replied_of_ok listed seated run
        exact acted.changed

section

variable {s : Setting} {i : Instruction} {m n : Machine} {id : ObjectId} {items : List Value}

theorem dispatch_requested (op : i.op = .nativeCall) :
    dispatch s i = requested s i >>= runProcedure := by
  rw [dispatch, op]
  rfl

/-- A machine in which a procedure is called: the one at hand, or the one in the middle of the step
that calls the procedure. -/
def InCall (m m' : Machine) : Prop := m' = m ∨ Lowered m.started m'

theorem InCall.seated {m' : Machine} (h : InCall m m') (seated : m.Seated) : m'.Seated := by
  rcases h with rfl | lowered
  · exact seated
  · exact (lowered.inFrame ⟨seated.base_le, seated.top_le⟩).1

theorem InCall.store {m' : Machine} (h : InCall m m') : m'.store = m.store := by
  rcases h with rfl | lowered
  · rfl
  · rw [lowered.same]
    rfl

/-- An instruction that calls a procedure does that and moves on. -/
theorem called_of_dispatch (op : i.op = .nativeCall) (h : dispatch s i m.started = .ok () n) :
    ∃ m', InCall m m' ∧ ∃ p ∈ s.procedures, ∃ count n', p.run count m' = .ok () n' ∧
      n = { n' with place := n'.place + 1 } := by
  rw [dispatch_requested op] at h
  obtain ⟨⟨p, count⟩, m', asked, rest⟩ := bind_eq_ok_iff.1 h
  obtain ⟨_, n', run, moved⟩ := bind_eq_ok_iff.1 rest
  have lowered := (requested_lowered s i).ok asked
  cases moved
  exact ⟨m', .inr lowered, p, requested_mem asked, count, n', run, rfl⟩

theorem dispatch_changed (table : s.procedures = standard) (seated : m.Seated) :
    m.store.Changed (leaves (dispatch s i) m).store := by
  by_cases op : i.op = .nativeCall
  · rw [dispatch_requested op]
    cases asked : requested s i m with
    | error fault m' =>
        have lowered := (requested_lowered s i).error asked
        rw [leaves, bind_of_error asked, lowered.same]
        exact .same
    | ok target m' =>
        obtain ⟨p, count⟩ := target
        have lowered := (requested_lowered s i).ok asked
        have same : m'.store = m.store := by rw [lowered.same]
        have changed : m'.store.Changed (leaves (p.run count) m').store :=
          changed_of_run (table ▸ requested_mem asked) (lowered.inFrame seated).1
        rw [leaves, bind_of_ok asked, ← same, runProcedure, bind_apply]
        cases run : p.run count m' with
        | ok _ n =>
            rw [leaves_of_ok run] at changed
            exact changed
        | error fault n =>
            rw [leaves_of_error run] at changed
            exact changed
  · rw [(dispatch_detached s op m).sameStore]
    exact .same

/-- A step changes the store as one procedure can, if at all. -/
theorem step_changed (table : s.procedures = standard) (seated : m.Seated) :
    m.store.Changed (m.step s).2.store := by
  have started : m.started.Seated := ⟨seated.base_le, seated.top_le⟩
  have attempted := m.attempted s
  rw [step]
  generalize m.attempt s = o at attempted
  cases attempted with
  | ended => exact .same
  | exhausted => exact .same
  | lost => exact .same
  | @done i n _ _ _ ok => exact leaves_of_ok ok ▸ dispatch_changed (i := i) table started
  | @failed i fault n _ _ _ error =>
      exact leaves_of_error error ▸ dispatch_changed (i := i) table started

/-- What a host can bring about, if it changes the store through its operations only. -/
inductive Attainable (s : Setting) : Machine → Prop where
  | initial (input : List UInt8) : Attainable s (initial s.limits input)
  | begin {m : Machine} (h : Attainable s m) : Attainable s (m.begin s)
  | step {m : Machine} (h : Attainable s m) : Attainable s (m.step s).2
  | argument {m : Machine} (h : Attainable s m) (count index : UInt16) :
      Attainable s (leaves (argument count index) m)
  | answer {m : Machine} (h : Attainable s m) (v : Value) (count : UInt16) :
      Attainable s (leaves (answer v count) m)
  | operate {m : Machine} (h : Attainable s m) (operation : Store.Operation) :
      Attainable s { m with store := m.store.perform operation }
  /-- Puts another sequence in the place of one. -/
  | replace {m : Machine} (h : Attainable s m) (id : ObjectId) (x : Sequence) :
      Attainable s { m with store := m.store.put id x }
  /-- Calls a procedure without an instruction. -/
  | run {m : Machine} (h : Attainable s m) {p : Procedure} (known : p ∈ s.procedures)
      (count : UInt16) : Attainable s (leaves (p.run count) m)

theorem begin_store (s : Setting) (m : Machine) : (m.begin s).store = .empty := by
  rw [begin]
  cases s.program.entry? with
  | none => rfl
  | some func =>
      by_cases room : 2 ≤ s.limits.operands
      · simp only [enter_of_le func m room]
        rfl
      · simp only [enter_of_lt func m (Nat.not_le.1 room)]
        rfl

theorem Attainable.framed (confined : s.IsConfined) (h : Attainable s m) : Framed s.limits m := by
  induction h with
  | initial input => exact .initial s.limits input
  | begin h ih => exact begin_framed s _
  | step h ih => exact step_framed confined ih
  | argument h count index ih => exact ih.of_inFrame (argument_keeps index _)
  | answer h v count ih => exact ih.of_inFrame (answer_confined v _).inFrame
  | operate h operation ih => exact ih.congr rfl rfl rfl rfl rfl
  | replace h id x ih => exact ih.congr rfl rfl rfl rfl rfl
  | run h known count ih => exact ih.of_inFrame (confined _ known count _).inFrame

theorem Attainable.orderly (table : s.procedures = standard) (h : Attainable s m) :
    m.store.Orderly := by
  have confined : s.IsConfined := fun p known => standard_isConfined p (table ▸ known)
  induction h with
  | initial input => exact Store.orderly_empty
  | @begin m h ih =>
      rw [begin_store]
      exact Store.orderly_empty
  | step h ih => exact (step_changed table (h.framed confined).seated).orderly ih
  | argument h count index ih =>
      have still : KeepsTo Still (Machine.argument count index) := argument_keeps index
      rw [still _]
      exact ih
  | answer h v count ih =>
      rw [answer_sameStore v _]
      exact ih
  | operate h operation ih => exact ih.perform operation
  | replace h id x ih => exact ih.put id x
  | run h known count ih =>
      exact (changed_of_run (table ▸ known) (h.framed confined).seated).orderly ih

theorem Attainable.afterSteps (h : Attainable s m) (k : Nat) : Attainable s (m.afterSteps s k) := by
  induction k with
  | zero => exact h
  | succ k ih => exact ih.step

/-- A tuple keeps its items as long as it is there. -/
theorem Attainable.tuple (table : s.procedures = standard) (h : Attainable s m)
    (here : m.store.objects id = some (items, true)) (k : Nat)
    (live : ∀ j ≤ k, (m.afterSteps s j).store.isLive id = true) :
    (m.afterSteps s k).store.objects id = some (items, true) := by
  have confined : s.IsConfined := fun p known => standard_isConfined p (table ▸ known)
  induction k with
  | zero => exact here
  | succ k ih =>
      have before := ih fun j le => live j (Nat.le_succ_of_le le)
      -- In a store that is not orderly a new object might take the number of the tuple.
      have attained := h.afterSteps k
      have changed := step_changed table (attained.framed confined).seated
      rcases changed.frozen (attained.orderly table) before with same | gone
      · exact same
      · rw [Store.objects_eq_none_iff] at gone
        cases gone.symm.trans (live (k + 1) (Nat.le_refl _))

end

/-- Let a host bring about a machine with the standard procedures, whatever its program is. If a
procedure on sequences succeeds in it, be it in the middle of a step, the objects change as the
procedure says and no others do, and of the registers only that of the first argument is written,
with the answer. A step that calls a procedure comes to such a call and moves on. And on every run a
tuple keeps its items as long as it is there. -/
theorem sequences_of_attainable (limits : Limits) (program : Program) (m : Machine)
    (attainable : Attainable ⟨limits, program, Procedure.standard⟩ m) :
    let s : Setting := ⟨limits, program, Procedure.standard⟩
    (∀ m', InCall m m' → ∀ p ∈ Procedure.onSequences, ∀ count n, p.run count m' = .ok () n →
      ∃ v, m'.Seats count ∧ n = m'.replied count v n.store ∧
        Effect (m'.topmost count.toNat) m'.store.objects p v n.store.objects) ∧
    (∀ i n, i.op = .nativeCall → dispatch s i m.started = .ok () n →
      ∃ m', InCall m m' ∧ ∃ p ∈ Procedure.standard, ∃ count n', p.run count m' = .ok () n' ∧
        n = { n' with place := n'.place + 1 }) ∧
    (∀ id items, m.store.objects id = some (items, true) → ∀ k,
      (∀ j ≤ k, (m.afterSteps s j).store.isLive id = true) →
      (m.afterSteps s k).store.objects id = some (items, true)) := by
  intro s
  refine ⟨fun m' inCall p known count n run => ?_, fun i n op done => called_of_dispatch op done,
    fun id items here k live => attainable.tuple rfl here k live⟩
  have confined : s.IsConfined := standard_isConfined
  have seated := inCall.seated (attainable.framed confined).seated
  have orderly : m'.store.Orderly := by
    rw [inCall.store]
    exact attainable.orderly rfl
  obtain ⟨v, store, seats, rfl, acted⟩ := replied_of_ok known seated run
  exact ⟨v, seats, rfl, acted.effect orderly⟩

/-- A program that appends the object with number 0 to itself. -/
def doubling : Program where
  chunks := #[#[.make .push [.object 0], .make .push [.object 0],
    .make .nativeCall [.immediate 9, .immediate 2]]]
  constants := #[]
  entry := some 0

/-- The program at the call, with a list and a tuple in the store. -/
def doublingList : Machine :=
  let s : Setting := ⟨⟨4, 4, 2, none⟩, doubling, Procedure.standard⟩
  let m := (initial s.limits []).begin s
  let m := { m with store := m.store.perform (.create (.list #[.int 3, .int 4])) }
  let m := { m with store := m.store.perform (.create (.tuple #[.int 5])) }
  m.afterSteps s 2

/-- A list that is appended to itself is doubled, and the tuple is as it was. -/
theorem sequences_of_doubling :
    let s : Setting := ⟨⟨4, 4, 2, none⟩, doubling, Procedure.standard⟩
    let m := doublingList
    Attainable s m ∧
      (∃ v n, Procedure.listConcat.run 2 m.started = .ok () n ∧
        n = m.started.replied 2 v n.store ∧
        Effect (m.started.topmost 2) m.started.store.objects Procedure.listConcat v
          n.store.objects ∧
        n.store.objects 0 = some ([.int 3, .int 4, .int 3, .int 4], false)) ∧
      (m.afterSteps s 1).store.objects 1 = some ([.int 5], true) := by
  intro s m
  have attainable : Attainable s m :=
    ((((Attainable.initial []).begin).operate _).operate _).afterSteps 2
  obtain ⟨calls, -, tuples⟩ := sequences_of_attainable s.limits s.program m attainable
  refine ⟨attainable, ?_, ?_⟩
  · obtain ⟨v, -, same, effect⟩ := calls m.started (.inr (.refl _)) Procedure.listConcat
      (by simp [Procedure.onSequences]) 2 _ rfl
    exact ⟨v, _, rfl, same, effect, by decide +kernel⟩
  · refine tuples 1 _ (by decide +kernel) 1 fun j le => ?_
    have both : ∀ j < 2, (m.afterSteps s j).store.isLive 1 = true := by decide +kernel
    exact both j (Nat.lt_succ_of_le le)

end Machine

end RegisterCode
