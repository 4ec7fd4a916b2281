import RegisterCode.Proofs.Machine.Missing

/-!
Runs and the number of their steps. The machine counts an instruction before it does it, and
nothing that the instruction does touches the count (`dispatch_steps`). So the count is
the length of a run that has come to its end (`RunsTo.steps`).
-/

namespace RegisterCode

namespace Machine

/-! ### The count of steps -/

/-- The action is no step of its own, and it does not touch what outlives the frames. -/
structure Detached (m n : Machine) : Prop where
  steps : n.steps = m.steps
  world : n.world = m.world

instance : Composes Detached where
  refl _ := ⟨rfl, rfl⟩
  trans h h' := ⟨h'.steps.trans h.steps, h'.world.trans h.world⟩

theorem Lowered.detached {m n : Machine} (h : Lowered m n) : Detached m n := by
  rw [h.same]
  exact ⟨rfl, rfl⟩

theorem detached_of_lowered {α : Type} {a : Action α} (h : KeepsTo Lowered a) :
    KeepsTo Detached a := by
  intro m
  exact (h m).detached

theorem write_detached (index : Nat) (v : Value) : KeepsTo Detached (write index v) := by
  intro m
  by_cases inside : index < m.registers.size
  · rw [leaves_of_ok (write_of_lt v inside)]
    exact ⟨rfl, rfl⟩
  · rw [leaves_of_error (write_of_le v (Nat.not_lt.1 inside))]
    exact ⟨rfl, rfl⟩

theorem push_detached (v : Value) : KeepsTo Detached (push v) := by
  refine .get_then fun m => ?_
  exact .bind (write_detached _ v) fun _ => .modify fun _ => ⟨rfl, rfl⟩

theorem assign_detached (x : Operand) (v : Value) : KeepsTo Detached (assign x v) := by
  refine .bind (require_keeps _ _) fun _ => ?_
  refine .bind (slot_keeps _) fun index => ?_
  exact .bind (write_detached index v) fun _ => .modify fun _ => ⟨rfl, rfl⟩

theorem advance_detached : KeepsTo Detached advance := .modify fun _ => ⟨rfl, rfl⟩

theorem goTo_detached (place : Nat) : KeepsTo Detached (goTo place) := .modify fun _ => ⟨rfl, rfl⟩

theorem binary_detached (op : BinaryOp) : KeepsTo Detached (binary op) := by
  refine .bind (detached_of_lowered pop_lowered) fun right => ?_
  refine .bind (detached_of_lowered pop_lowered) fun left => ?_
  dsimp only
  split
  · split
    · exact .throw _
    · exact .throw _
  · exact .bind (.modify fun _ => ⟨rfl, rfl⟩) fun _ => push_detached _
  · exact push_detached _

theorem jumpWhen_detached (s : Setting) (i : Instruction) (taken : Bool) :
    KeepsTo Detached (jumpWhen s i taken) := by
  refine .bind (operand_keeps i 0) fun x => ?_
  refine .bind (detached_of_lowered (load_lowered s x)) fun v => ?_
  refine .bind (need_keeps _ _) fun cond => ?_
  refine .bind (operand_keeps i 1) fun y => ?_
  refine .bind (detached_of_lowered (jumpTarget_lowered s y)) fun target => ?_
  refine .bind (.modify fun _ => ⟨rfl, rfl⟩) fun _ => ?_
  split
  · exact goTo_detached target
  · exact advance_detached

theorem saveSpecials_detached (limits : Limits) : KeepsTo Detached (saveSpecials limits) := by
  intro m
  by_cases room : m.operands.size + 2 ≤ limits.operands
  · rw [leaves_of_ok (saveSpecials_of_le room)]
    exact ⟨rfl, rfl⟩
  · rw [leaves_of_error (saveSpecials_of_lt (Nat.not_le.1 room))]
    exact ⟨rfl, rfl⟩

theorem call_detached (s : Setting) (func argc : Nat) : KeepsTo Detached (call s func argc) := by
  refine .bind (require_keeps _ _) fun _ => .get_then fun m => ?_
  refine .bind (require_keeps _ _) fun _ => ?_
  refine .bind (require_keeps _ _) fun _ => ?_
  exact .bind (saveSpecials_detached _) fun _ => .modify fun _ => ⟨rfl, rfl⟩

theorem restoreSpecials_detached : KeepsTo Detached restoreSpecials := by
  refine .get_then fun m => .bind (need_keeps _ _) fun flag => ?_
  refine .bind (.modify fun _ => ⟨rfl, rfl⟩) fun _ => ?_
  refine .get_then fun m => .bind (need_keeps _ _) fun status => ?_
  exact .modify fun _ => ⟨rfl, rfl⟩

theorem ret_detached (v : Value) : KeepsTo Detached (ret v) := by
  refine .get_then fun m => .bind (write_detached _ v) fun _ => ?_
  refine .get_then fun m => .bind (need_keeps _ _) fun frame => ?_
  exact .bind (.modify fun _ => ⟨rfl, rfl⟩) fun _ => restoreSpecials_detached

/-- Only the calls of procedures touch what outlives the frames. -/
theorem dispatch_detached (s : Setting) {i : Instruction} (other : i.op ≠ .nativeCall) :
    KeepsTo Detached (dispatch s i) := by
  unfold dispatch
  cases op : i.op with
  | nop => exact advance_detached
  | mov =>
      refine .bind (operand_keeps i 0) fun dest => ?_
      refine .bind (operand_keeps i 1) fun x => ?_
      refine .bind (detached_of_lowered (load_lowered s x)) fun v => ?_
      exact .bind (assign_detached dest v) fun _ => advance_detached
  | push =>
      refine .bind (operand_keeps i 0) fun x => ?_
      refine .bind (detached_of_lowered (load_lowered s x)) fun v => ?_
      exact .bind (push_detached v) fun _ => advance_detached
  | neg =>
      refine .bind (operand_keeps i 0) fun dest => ?_
      refine .bind (require_keeps _ _) fun _ => ?_
      refine .bind (detached_of_lowered (load_lowered s dest)) fun v => ?_
      refine .bind (require_keeps _ _) fun _ => ?_
      exact .bind (assign_detached dest _) fun _ => advance_detached
  | binary b => exact .bind (binary_detached b) fun _ => advance_detached
  | jump =>
      refine .bind (operand_keeps i 0) fun x => ?_
      exact .bind (detached_of_lowered (jumpTarget_lowered s x)) fun place =>
        goTo_detached place
  | jumpIf => exact jumpWhen_detached s i true
  | jumpElse => exact jumpWhen_detached s i false
  | call =>
      refine .bind (operand_keeps i 0) fun x => ?_
      refine .bind (detached_of_lowered (count_lowered s x)) fun func => ?_
      refine .bind (operand_keeps i 1) fun y => ?_
      refine .bind (detached_of_lowered (count_lowered s y)) fun argc => ?_
      exact call_detached s func argc
  | nativeCall => exact absurd op other
  | ret =>
      refine .bind (operand_keeps i 0) fun x => ?_
      exact .bind (detached_of_lowered (load_lowered s x)) fun v => ret_detached v
  | halt => exact .modify fun _ => ⟨rfl, rfl⟩

/-- An instruction counts no steps; that is done before it. -/
theorem dispatch_steps {s : Setting} (confined : s.IsConfined) (i : Instruction) (m : Machine) :
    (leaves (dispatch s i) m).steps = m.steps := by
  by_cases op : i.op = .nativeCall
  · rw [dispatch, op]
    dsimp only
    have first : KeepsTo Detached (requested s i) := detached_of_lowered (requested_lowered s i)
    cases run : requested s i m with
    | ok request n =>
        obtain ⟨p, argc⟩ := request
        have works : (leaves (p.run argc) n).steps = n.steps := by
          rw [(confined p (requested_mem run) argc n).same]
        rw [leaves, bind_of_ok run, ← (first.ok run).steps, ← works]
        dsimp only
        rw [bind_apply]
        cases answered : p.run argc n with
        | ok _ o => rw [leaves_of_ok answered]; rfl
        | error fault o => rw [leaves_of_error answered]
    | error fault n =>
        rw [leaves, bind_of_error run]
        exact (first.error run).steps
  · exact (dispatch_detached s op m).steps

/-! ### Runs that come to an end -/

/-- The run comes to its end after it has started so many instructions: it has ended already,
or it has used up the limit on its steps, or an instruction fails, or it goes on after one. -/
inductive RunsTo (s : Setting) : Nat → Machine → Machine → Prop where
  | ended {m : Machine} (stopped : m.isRunning = false) : RunsTo s 0 m m
  | exhausted {m n : Machine} {limit : Nat} (reached : m.attempt s = .exhausted limit n) :
      RunsTo s 0 m { n with status := .anyError }
  | failed {m n : Machine} {fault : Fault} (fails : m.attempt s = .failed fault n) :
      RunsTo s 1 m { n with status := fault.status }
  | next {k : Nat} {m n z : Machine} (done : m.attempt s = .done n) (rest : RunsTo s k n z) :
      RunsTo s (k + 1) m z

/-- An instruction at work, or the lack of one. -/
def work (s : Setting) (m : Machine) : Action Unit :=
  need .endOfCode (s.program.fetch? m.func m.place) >>= dispatch s

section

variable {s : Setting} {m n z : Machine} {k : Nat}

theorem attempt_of_not_running (stopped : m.isRunning = false) : m.attempt s = .ended m := by
  rw [attempt, stopped, if_neg Bool.false_ne_true]

theorem attempt_of_reached {limit : Nat} (running : m.isRunning = true)
    (reached : m.reachedLimit? s.limits = some limit) : m.attempt s = .exhausted limit m := by
  rw [attempt, running, if_pos rfl, reached]

theorem attempt_of_below (running : m.isRunning = true)
    (below : m.reachedLimit? s.limits = none) : m.attempt s = outcome (work s m) m.started := by
  rw [attempt, running, if_pos rfl, below]
  rfl

theorem attempt_steps (confined : s.IsConfined) :
    match m.attempt s with
    | .ended n => n = m
    | .exhausted _ n => n = m
    | .done n => n.steps = m.steps + 1
    | .failed _ n => n.steps = m.steps + 1 := by
  have works (i : Instruction) : (leaves (dispatch s i) m.started).steps = m.steps + 1 :=
    dispatch_steps confined i m.started
  have attempted := m.attempted s
  generalize m.attempt s = o at attempted
  cases attempted with
  | ended => rfl
  | exhausted => rfl
  | lost => rfl
  | @done i n _ _ _ ok => exact leaves_of_ok ok ▸ works i
  | @failed i fault n _ _ _ error => exact leaves_of_error error ▸ works i

theorem below_of_done (done : m.attempt s = .done n) : m.reachedLimit? s.limits = none := by
  have attempted := m.attempted s
  rw [done] at attempted
  cases attempted with
  | done _ below => exact below

theorem below_of_failed {fault : Fault} (fails : m.attempt s = .failed fault n) :
    m.reachedLimit? s.limits = none := by
  have attempted := m.attempted s
  rw [fails] at attempted
  cases attempted with
  | lost _ below => exact below
  | failed _ below => exact below

theorem follow_succ_of_done (done : m.attempt s = .done n) (running : n.isRunning = true)
    (k : Nat) : m.follow s (k + 1) = n.follow s k := by
  rw [follow, step, done, Outcome.settle, running]

theorem isRunning_of_failed {fault : Fault} (fails : m.attempt s = .failed fault n) :
    m.isRunning = true := by
  have attempted := m.attempted s
  rw [fails] at attempted
  cases attempted with
  | lost running => exact running
  | failed running => exact running

theorem reachedLimit?_of_exhausted {limit : Nat} (reached : m.attempt s = .exhausted limit n) :
    m.reachedLimit? s.limits = some limit := by
  have attempted := m.attempted s
  rw [reached] at attempted
  cases attempted with
  | exhausted here => exact here

theorem begin_steps (s : Setting) (m : Machine) : (m.begin s).steps = 0 := by
  rw [begin]
  cases s.program.entry? with
  | none => rfl
  | some func =>
      by_cases room : 2 ≤ s.limits.operands
      · simp only [enter_of_le func m room]
        rfl
      · simp only [enter_of_lt func m (Nat.not_le.1 room)]
        rfl

namespace RunsTo

/-- Nothing more happens in a run that is over. -/
theorem eq_of_not_running (h : RunsTo s k m z) (stopped : m.isRunning = false) :
    k = 0 ∧ z = m := by
  have ended : m.attempt s = .ended m := attempt_of_not_running stopped
  cases h with
  | ended => exact ⟨rfl, rfl⟩
  | exhausted reached =>
      rw [ended] at reached
      cases reached
  | failed fails =>
      rw [ended] at fails
      cases fails
  | next done =>
      rw [ended] at done
      cases done

theorem isRunning_of_pos (h : RunsTo s k m z) (some : 0 < k) : m.isRunning = true := by
  cases running : m.isRunning with
  | true => rfl
  | false => exact absurd (h.eq_of_not_running running).1 (Nat.ne_of_gt some)

theorem steps (confined : s.IsConfined) (h : RunsTo s k m z) : z.steps = m.steps + k := by
  induction h with
  | ended => rfl
  | @exhausted m n limit reached =>
      have same := attempt_steps (s := s) (m := m) confined
      rw [reached] at same
      rw [same]
      rfl
  | @failed m n fault fails =>
      have same := attempt_steps (s := s) (m := m) confined
      rw [fails] at same
      exact same
  | @next k m n z done _ ih =>
      have same := attempt_steps (s := s) (m := m) confined
      rw [done] at same
      rw [ih, same, Nat.add_right_comm, Nat.add_assoc]

/-- A run starts no more instructions than its limit allows. -/
theorem le_limit (confined : s.IsConfined) (h : RunsTo s k m z) {limit : Nat}
    (limited : s.limits.steps = some limit) (within : m.steps ≤ limit) :
    m.steps + k ≤ limit := by
  induction h with
  | ended => exact within
  | exhausted => exact within
  | failed fails =>
      exact Tracked.reachedLimit?_eq_none_iff.1 (below_of_failed fails) limit limited
  | @next k m n z done _ ih =>
      have below := Tracked.reachedLimit?_eq_none_iff.1 (below_of_done done) limit limited
      have same := attempt_steps (s := s) (m := m) confined
      rw [done] at same
      have rest := ih (same ▸ below)
      rwa [same, Nat.add_right_comm] at rest

/-- To follow a run further than its end changes nothing. -/
theorem follow (h : RunsTo s k m z) {n : Nat} (enough : k < n) : m.follow s n = z := by
  induction h generalizing n with
  | ended stopped =>
      obtain ⟨n, rfl⟩ := Nat.exists_eq_succ_of_ne_zero (Nat.ne_of_gt enough)
      rw [Machine.follow, step, attempt_of_not_running stopped]
      rfl
  | exhausted reached =>
      obtain ⟨n, rfl⟩ := Nat.exists_eq_succ_of_ne_zero (Nat.ne_of_gt enough)
      rw [Machine.follow, step, reached]
      rfl
  | failed fails =>
      obtain ⟨n, rfl⟩ := Nat.exists_eq_succ_of_ne_zero (Nat.ne_of_gt (Nat.zero_lt_of_lt enough))
      rw [Machine.follow, step, fails]
      rfl
  | @next k m n' z done rest ih =>
      obtain ⟨n, rfl⟩ := Nat.exists_eq_succ_of_ne_zero (Nat.ne_of_gt (Nat.zero_lt_of_lt enough))
      rw [Machine.follow, step, done, Outcome.settle]
      cases running : n'.isRunning with
      | true => exact ih (Nat.lt_of_succ_lt_succ enough)
      | false => exact (rest.eq_of_not_running running).2.symm

/-- The machine keeps its shape to the end. -/
theorem framed (confined : s.IsConfined) (h : RunsTo s k m z) (framed : Framed s.limits m) :
    Framed s.limits z := by
  induction h with
  | ended => exact framed
  | exhausted reached =>
      have stepped := step_framed confined framed
      rw [step, reached] at stepped
      exact stepped
  | failed fails =>
      have stepped := step_framed confined framed
      rw [step, fails] at stepped
      exact stepped
  | next done _ ih =>
      have stepped := step_framed confined framed
      rw [step, done] at stepped
      exact ih stepped

/-- If following a run gets to a machine that is not running, the run comes to its end there. -/
theorem of_follow {n : Nat} (stopped : (m.follow s n).isRunning = false) :
    ∃ k, RunsTo s k m (m.follow s n) := by
  induction n generalizing m with
  | zero => exact ⟨0, .ended stopped⟩
  | succ n ih =>
      rw [Machine.follow, step] at stopped ⊢
      have attempted := m.attempted s
      cases outcome : m.attempt s with
      | ended o =>
          rw [outcome] at attempted
          cases attempted with
          | ended idle => exact ⟨0, .ended idle⟩
      | exhausted limit o => exact ⟨0, .exhausted outcome⟩
      | failed fault o => exact ⟨1, .failed outcome⟩
      | done o =>
          rw [outcome, Outcome.settle] at stopped
          rw [Outcome.settle]
          cases running : o.isRunning with
          | true =>
              rw [running] at stopped
              obtain ⟨k, rest⟩ := ih stopped
              exact ⟨k + 1, .next outcome rest⟩
          | false => exact ⟨1, .next outcome (.ended running)⟩

/-- Executing the entry function gives the end of a run, if it gives a machine that is not
running. -/
theorem of_execute (stopped : (m.execute s).isRunning = false) :
    ∃ k, RunsTo s k (m.begin s) (m.execute s) := by
  rw [Machine.execute] at stopped ⊢
  cases fine : (m.begin s).status.isOk with
  | true =>
      simp only [fine, if_true] at stopped ⊢
      exact of_follow stopped
  | false =>
      simp only [fine, Bool.false_eq_true, if_false] at stopped ⊢
      exact ⟨0, .ended stopped⟩

/-- The end of a run is what executing the entry function gives. -/
theorem execute {m : Machine} (confined : s.IsConfined) (h : RunsTo s k (m.begin s) z)
    (word : s.limits.steps = none → k ≤ UInt64.size) : m.execute s = z := by
  have enough : k < s.limits.horizon := by
    rw [Limits.horizon]
    cases limited : s.limits.steps with
    | none => exact Nat.lt_succ_of_le (word limited)
    | some limit =>
        have start : (m.begin s).steps = 0 := begin_steps s m
        have within := h.le_limit confined limited (start ▸ Nat.zero_le limit)
        rw [start, Nat.zero_add] at within
        exact Nat.lt_succ_of_le within
  rw [Machine.execute]
  cases fine : (m.begin s).status.isOk with
  | true => exact h.follow enough
  | false =>
      have stopped : (m.begin s).isRunning = false := by
        rw [isRunning, fine, Bool.and_false]
      exact (h.eq_of_not_running stopped).2.symm

end RunsTo

end

end Machine

end RegisterCode
