import RegisterCode.Proofs.Machine.Tracked

/-!
Programs that call procedures which are not there. Such a call fails, and so does that of a
procedure that does nothing else. So a table of procedures may be taken to be as long as one
likes (`completes_filled_iff`).
-/

namespace RegisterCode

/-- A procedure that fails like one that is not there. -/
def Procedure.missing : Procedure := ⟨"", fun _ => throw .unknownProcedure⟩

theorem Procedure.missing_lawful : missing.Lawful where
  confined _ := .throw _
  couples _ := .throw (by decide)

/-- The setting with `n` more procedures, none of which is there. -/
def Setting.filled (s : Setting) (n : Nat) : Setting :=
  { s with procedures := s.procedures ++ Array.replicate n .missing }

theorem Setting.Lawful.filled {s : Setting} (h : s.Lawful) (n : Nat) : (s.filled n).Lawful := by
  intro p mem
  rcases Array.mem_append.1 mem with there | missing
  · exact h p there
  · rw [Array.eq_of_mem_replicate missing]
    exact Procedure.missing_lawful

theorem Setting.le_size_filled (s : Setting) (n : Nat) : n ≤ (s.filled n).procedures.size := by
  rw [filled, Array.size_append, Array.size_replicate]
  exact Nat.le_add_left _ _

namespace Machine

/-- The same outcome, except that a run may fail with another fault of the same status. -/
inductive Outcome.Same : Outcome → Outcome → Prop where
  | refl (o : Outcome) : Same o o
  | failed {fault fault' : Fault} (status : fault'.status = fault.status)
    (limit : fault'.isLimit = fault.isLimit) (m : Machine) :
    Same (.failed fault m) (.failed fault' m)

theorem Outcome.Same.symm {o o' : Outcome} (h : o.Same o') : o'.Same o := by
  cases h with
  | refl => exact .refl _
  | failed status limit m => exact .failed status.symm limit.symm m

/-- What an instruction comes to. -/
def outcome (a : Action Unit) (m : Machine) : Outcome :=
  match a m with
  | .ok _ n => .done n
  | .error fault n => .failed fault n

variable {s : Setting} {i : Instruction}

/-- Only the calls of procedures look at the table. -/
theorem dispatch_of_ne (table : Array Procedure) (op : i.op ≠ .nativeCall) :
    dispatch { s with procedures := table } i = dispatch s i := by
  unfold dispatch
  cases is : i.op <;> first | rfl | exact absurd is op

/-- The procedure with the given number, and the count of arguments. -/
def procedureOf (table : Array Procedure) (id argc : Nat) : Action (Procedure × UInt16) := do
  let procedure ← need .unknownProcedure table[id]?
  require (argc < UInt16.size) .tooManyArguments
  return (procedure, UInt16.ofNat argc)

/-- Runs a procedure and moves on. -/
def runProcedure (target : Procedure × UInt16) : Action Unit := do
  target.1.run target.2
  advance

theorem dispatch_nativeCall_eq (s : Setting) (op : i.op = .nativeCall) :
    dispatch s i = callee s i >>= fun target =>
      procedureOf s.procedures target.1 target.2 >>= runProcedure := by
  have requested : requested s i =
      callee s i >>= fun target => procedureOf s.procedures target.1 target.2 := by
    unfold Machine.requested callee
    simp only [bind_assoc, pure_bind]
    unfold procedureOf
    with_reducible rfl
  rw [dispatch, op]
  dsimp only
  rw [requested, bind_assoc]
  rfl

theorem procedureOf_none {table : Array Procedure} {id : Nat} (none : table[id]? = none)
    (argc : Nat) (m : Machine) :
    procedureOf table id argc m = .error .unknownProcedure m := by
  rw [procedureOf, none]
  rfl

theorem procedureOf_some {table : Array Procedure} {id : Nat} {p : Procedure}
    (found : table[id]? = some p) (argc : Nat) (m : Machine) :
    procedureOf table id argc m =
      if argc < UInt16.size then .ok (p, UInt16.ofNat argc) m else .error .tooManyArguments m := by
  simp only [procedureOf, found, need, require, bind_apply, pure_apply, decide_eq_true_eq]
  by_cases few : argc < UInt16.size
  · rw [if_pos few, if_pos few]
    rfl
  · rw [if_neg few, if_neg few]
    rfl

/-- A call of a procedure that is not there fails, and so it does if the table is filled up. -/
theorem procedureOf_filled (s : Setting) (n id argc : Nat) (m : Machine) :
    (outcome (procedureOf s.procedures id argc >>= runProcedure) m).Same
      (outcome (procedureOf (s.filled n).procedures id argc >>= runProcedure) m) := by
  cases found : s.procedures[id]? with
  | some p =>
      have found' : (s.filled n).procedures[id]? = some p := by
        rw [Setting.filled, Array.getElem?_append_left (Array.getElem?_eq_some_iff.1 found).1, found]
      have same : procedureOf (s.filled n).procedures id argc m =
          procedureOf s.procedures id argc m := by
        rw [procedureOf_some found, procedureOf_some found']
      rw [outcome, outcome, bind_apply, bind_apply, same]
      exact .refl _
  | none =>
      rw [outcome, bind_of_error (procedureOf_none found argc m), outcome]
      cases found' : (s.filled n).procedures[id]? with
      | none =>
          rw [bind_of_error (procedureOf_none found' argc m)]
          exact .refl _
      | some p =>
          have beyond := Array.getElem?_eq_none_iff.1 found
          obtain rfl : p = .missing := by
            rw [Setting.filled, Array.getElem?_append_right beyond] at found'
            exact Array.eq_of_mem_replicate (Array.mem_of_getElem? found')
          have fails := procedureOf_some found' argc m
          by_cases few : argc < UInt16.size
          · rw [if_pos few] at fails
            rw [bind_of_ok fails]
            exact .refl _
          · rw [if_neg few] at fails
            rw [bind_of_error fails]
            show Outcome.Same (.failed .unknownProcedure m) (.failed .tooManyArguments m)
            refine .failed ?_ ?_ m <;> rfl

theorem outcome_filled (s : Setting) (n : Nat) (i : Instruction) (m : Machine) :
    (outcome (dispatch s i) m).Same (outcome (dispatch (s.filled n) i) m) := by
  by_cases op : i.op = .nativeCall
  · have read : callee (s.filled n) i = callee s i := rfl
    rw [dispatch_nativeCall_eq s op, dispatch_nativeCall_eq (s.filled n) op, read, outcome, outcome,
      bind_apply, bind_apply]
    cases callee s i m with
    | error fault m' => exact .refl _
    | ok target m' => exact procedureOf_filled s n target.1 target.2 m'
  · have same : dispatch (s.filled n) i = dispatch s i := dispatch_of_ne _ op
    rw [same]
    exact .refl _

theorem attempt_filled (s : Setting) (n : Nat) (m : Machine) :
    (m.attempt s).Same (m.attempt (s.filled n)) := by
  cases running : m.isRunning with
  | false =>
      have stopped (s : Setting) : m.attempt s = .ended m := by
        rw [attempt, running, if_neg Bool.false_ne_true]
      rw [stopped, stopped]
      exact .refl _
  | true =>
      cases below : m.reachedLimit? s.limits with
      | some limit =>
          have exhausted : ∀ t : Setting, t.limits = s.limits → m.attempt t = .exhausted limit m := by
            intro t same
            rw [attempt, running, if_pos rfl, same, below]
          rw [exhausted s rfl, exhausted (s.filled n) rfl]
          exact .refl _
      | none =>
          have opened : ∀ t : Setting, t.limits = s.limits → m.attempt t =
              outcome (need .endOfCode (t.program.fetch? m.func m.place) >>= dispatch t)
                m.started := by
            intro t same
            rw [attempt, running, if_pos rfl, same, below]
            rfl
          rw [opened s rfl, opened (s.filled n) rfl]
          have code : (s.filled n).program = s.program := rfl
          rw [code]
          cases s.program.fetch? m.func m.place with
          | none => exact .refl _
          | some i => exact outcome_filled s n i m.started

end Machine

namespace Tracked

open Machine

variable {mark : Marking} {allowed : Instruction → Tracked → Prop} {n : Nat} {x z : Tracked}

/-- Runs with outcomes that are the same end in the same way. -/
theorem Completes.of_same {s s' : Setting} (program : s'.program = s.program)
    (same : ∀ m : Machine, (m.attempt s).Same (m.attempt s'))
    (records : ∀ m i written, writtenAfter s' mark m i written = writtenAfter s mark m i written)
    (h : Completes s mark allowed n x z) : Completes s' mark allowed n x z := by
  have fetch (x : Tracked) : x.fetch? s' = x.fetch? s := by rw [fetch?, fetch?, program]
  induction h with
  | ended stopped => exact .ended stopped
  | @failed x fault m permitted failed limit =>
      have here := same x.machine
      rw [failed] at here
      generalize attempted : x.machine.attempt s' = o at here
      cases here with
      | refl => exact .failed (fun i fetched => permitted i (fetch x ▸ fetched)) attempted limit
      | failed status limit' =>
          rw [← status]
          exact .failed (fun i fetched => permitted i (fetch x ▸ fetched)) attempted
            (limit'.trans limit)
  | @step x z i m n fetched permitted done _ ih =>
      have here := same x.machine
      rw [done] at here
      generalize attempted : x.machine.attempt s' = o at here
      cases here
      have after : x.after s' mark i m = x.after s mark i m := by
        rw [Tracked.after, records]
        rfl
      rw [← after] at ih
      exact .step ((fetch x).trans fetched) permitted attempted ih

/-- A run is completed just as if there were more procedures. -/
theorem completes_filled_iff {s : Setting} {k : Nat} :
    Completes (s.filled k) mark allowed n x z ↔ Completes s mark allowed n x z :=
  ⟨.of_same rfl (fun m => (attempt_filled s k m).symm) fun _ _ _ => rfl,
    .of_same rfl (attempt_filled s k) fun _ _ _ => rfl⟩

end Tracked

end RegisterCode
