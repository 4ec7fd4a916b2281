import RegisterCode.Proofs.Machine.Moves
import RegisterCode.Proofs.Machine.Perform

/-!
Runs with a record of what was written in each open frame and of how high the
top rose. A run is completed when it comes to its end without meeting one of the
limits. What is shown of a stretch of a run has the form `Goes`: either the
machine gets through it, or it needs more than the limits allow and the run is
never completed.
-/

namespace RegisterCode

/-- The machine when one more instruction has been counted. -/
def Machine.started (m : Machine) : Machine := { m with steps := m.steps + 1 }

/-- The offset in the frame that an instruction writes, if it writes one. -/
abbrev Marking := Machine → Instruction → Option Nat

/-- A machine and what is known of its run so far. -/
structure Tracked where
  machine : Machine
  /-- The offsets written in each open frame, the innermost frame first. -/
  written : List (List Nat)
  /-- The highest top so far. -/
  peak : Nat

/-- The record after an instruction. A frame that a call opens has the arguments
written in it. -/
def writtenAfter (s : Setting) (mark : Marking) (m : Machine) (i : Instruction)
    (written : List (List Nat)) : List (List Nat) :=
  match i.op with
  | .call =>
    match m.callee s i with
    | .ok (_, argc) _ => List.range argc :: written
    | .error _ _ => written
  | .ret => written.tail
  | _ =>
    match mark m i, written with
    | some offset, frame :: rest => (offset :: frame) :: rest
    | _, _ => written

namespace Tracked

def after (s : Setting) (mark : Marking) (x : Tracked) (i : Instruction) (m : Machine) :
    Tracked :=
  ⟨m, writtenAfter s mark x.machine i x.written, max x.peak m.top⟩

def fetch? (s : Setting) (x : Tracked) : Option Instruction :=
  s.program.fetch? x.machine.func x.machine.place

/-- The machine gets from one state to another in that many instructions. -/
inductive Steps (s : Setting) (mark : Marking) : Nat → Tracked → Tracked → Prop where
  | refl (x : Tracked) : Steps s mark 0 x x
  | head {x z : Tracked} {i : Instruction} {m : Machine} {n : Nat}
    (fetched : x.fetch? s = some i) (done : x.machine.attempt s = .done m)
    (rest : Steps s mark n (x.after s mark i m) z) : Steps s mark (n + 1) x z

/-- A run that comes to its end after that many instructions, the last of which
may have failed, and that meets no limit. All its instructions are allowed. -/
inductive Completes (s : Setting) (mark : Marking) (allowed : Instruction → Tracked → Prop) :
    Nat → Tracked → Tracked → Prop where
  | ended {x : Tracked} (stopped : x.machine.isRunning = false) :
    Completes s mark allowed 0 x x
  | failed {x : Tracked} {fault : Fault} {m : Machine}
    (permitted : ∀ i, x.fetch? s = some i → allowed i x)
    (failed : x.machine.attempt s = .failed fault m) (limit : fault.isLimit = false) :
    Completes s mark allowed 1 x
      ⟨{ m with status := fault.status }, x.written, max x.peak m.top⟩
  | step {x z : Tracked} {i : Instruction} {m : Machine} {n : Nat}
    (fetched : x.fetch? s = some i) (permitted : allowed i x)
    (done : x.machine.attempt s = .done m)
    (rest : Completes s mark allowed n (x.after s mark i m) z) :
    Completes s mark allowed (n + 1) x z

/-- Nothing is asked of the instructions of a run. -/
def Any (_ : Instruction) (_ : Tracked) : Prop := True

instance (i : Instruction) (x : Tracked) : Decidable (Any i x) := .isTrue trivial

/-- The run is never completed. -/
def Barred (s : Setting) (mark : Marking) (allowed : Instruction → Tracked → Prop)
    (x : Tracked) : Prop :=
  ∀ n z, ¬ Completes s mark allowed n x z

variable {s : Setting} {mark : Marking} {allowed : Instruction → Tracked → Prop}
  {x y z : Tracked}

theorem Steps.trans {n k : Nat} (h : Steps s mark n x y) (h' : Steps s mark k y z) :
    Steps s mark (n + k) x z := by
  induction h with
  | refl => rwa [Nat.zero_add]
  | head fetched done _ ih =>
      rw [Nat.add_right_comm]
      exact .head fetched done (ih h')

theorem isRunning_of_done {m m' : Machine} (h : m.attempt s = .done m') :
    m.isRunning = true := by
  have attempted := m.attempted s
  rw [h] at attempted
  cases attempted with
  | done running => exact running

theorem Completes.mono {allowed' : Instruction → Tracked → Prop} {n : Nat}
    (imp : ∀ i x, allowed i x → allowed' i x) (h : Completes s mark allowed n x z) :
    Completes s mark allowed' n x z := by
  induction h with
  | ended stopped => exact .ended stopped
  | failed permitted failed limit =>
      exact .failed (fun i fetched => imp _ _ (permitted i fetched)) failed limit
  | step fetched permitted done _ ih => exact .step fetched (imp _ _ permitted) done ih

theorem Completes.any {n : Nat} (h : Completes s mark allowed n x z) :
    Completes s mark Any n x z :=
  h.mono fun _ _ _ => trivial

theorem Completes.of_steps {k n : Nat} (h : Steps s mark k x y)
    (rest : Completes s mark Any n y z) : Completes s mark Any (k + n) x z := by
  induction h with
  | refl => rwa [Nat.zero_add]
  | head fetched done _ ih =>
      rw [Nat.add_right_comm]
      exact .step fetched trivial done (ih rest)

/-- A run comes to one end only. -/
theorem Completes.unique {allowed' : Instruction → Tracked → Prop} {n k : Nat} {z' : Tracked}
    (h : Completes s mark allowed n x z) (h' : Completes s mark allowed' k x z') :
    n = k ∧ z = z' := by
  induction h generalizing k with
  | ended stopped =>
      cases h' with
      | ended => exact ⟨rfl, rfl⟩
      | failed _ failed => rw [Machine.attempt, stopped] at failed; cases failed
      | step _ _ done => rw [isRunning_of_done done] at stopped; cases stopped
  | failed _ failed =>
      cases h' with
      | ended stopped => rw [Machine.attempt, stopped] at failed; cases failed
      | failed _ failed' =>
          rw [failed] at failed'
          cases failed'
          exact ⟨rfl, rfl⟩
      | step _ _ done => rw [failed] at done; cases done
  | step fetched _ done _ ih =>
      cases h' with
      | ended stopped => rw [isRunning_of_done done] at stopped; cases stopped
      | failed _ failed => rw [done] at failed; cases failed
      | step fetched' _ done' rest' =>
          rw [fetched] at fetched'
          rw [done] at done'
          cases fetched'
          cases done'
          obtain ⟨rfl, rfl⟩ := ih rest'
          exact ⟨rfl, rfl⟩

theorem follow_of_stopped {m : Machine} (stopped : m.isRunning = false) (k : Nat) :
    m.follow s k = m := by
  cases k with
  | zero => rfl
  | succ k =>
      have ended : m.step s = (false, m) := by
        simp only [Machine.step, Machine.attempt, stopped, Bool.false_eq_true, if_false]
        rfl
      simp only [Machine.follow, ended]

/-- What a run gets to is found by following it. -/
theorem Steps.follow {n : Nat} (h : Steps s mark n x y) : x.machine.follow s n = y.machine := by
  induction h with
  | refl => rfl
  | @head x z i m n _ done _ ih =>
      simp only [Machine.follow, Machine.step, done, Machine.Outcome.settle]
      cases running : m.isRunning with
      | true => exact ih
      | false => exact (follow_of_stopped running n).symm.trans ih

/-- A run that is completed is found at its end, however long it is followed. -/
theorem Completes.follow {n : Nat} (h : Completes s mark allowed n x z) :
    ∀ k, n ≤ k → x.machine.follow s k = z.machine := by
  induction h with
  | ended stopped => exact fun k _ => follow_of_stopped stopped k
  | failed _ failed _ =>
      intro k le
      obtain ⟨k, rfl⟩ := Nat.exists_eq_add_of_le' le
      simp only [Machine.follow, Machine.step, failed, Machine.Outcome.settle]
  | @step x z i m n _ _ done rest ih =>
      intro k le
      obtain ⟨k, rfl⟩ := Nat.exists_eq_add_of_le' (Nat.le_of_add_left_le le)
      have there := ih k (by omega)
      simp only [Machine.follow, Machine.step, done, Machine.Outcome.settle]
      cases running : m.isRunning with
      | true => exact there
      | false => exact (follow_of_stopped running k).symm.trans there

/-- A run that is completed is completed from every state on its way. -/
theorem Completes.after_steps {k n : Nat} (h : Steps s mark k x y)
    (run : Completes s mark allowed n x z) :
    ∃ n', n = k + n' ∧ Completes s mark allowed n' y z := by
  induction h generalizing n with
  | refl => exact ⟨n, (Nat.zero_add n).symm, run⟩
  | head fetched done _ ih =>
      cases run with
      | ended stopped => rw [isRunning_of_done done] at stopped; cases stopped
      | failed _ failed _ => rw [done] at failed; cases failed
      | step fetched' _ done' rest =>
          rw [fetched] at fetched'
          rw [done] at done'
          cases fetched'
          cases done'
          obtain ⟨n', count, rest⟩ := ih rest
          exact ⟨n', by omega, rest⟩

namespace Barred

theorem of_any (h : Barred s mark Any x) : Barred s mark allowed x :=
  fun n z run => h n z run.any

theorem of_steps {k : Nat} (h : Steps s mark k x y) (barred : Barred s mark allowed y) :
    Barred s mark allowed x := by
  intro n z run
  obtain ⟨n', -, rest⟩ := run.after_steps h
  exact barred n' z rest

theorem of_exhausted {limit : Nat} (running : x.machine.isRunning = true)
    (h : x.machine.reachedLimit? s.limits = some limit) : Barred s mark allowed x := by
  have exhausted : x.machine.attempt s = .exhausted limit x.machine := by
    simp only [Machine.attempt, running, h, if_true]
  intro n z run
  cases run with
  | ended stopped => rw [running] at stopped; cases stopped
  | failed _ failed _ => rw [exhausted] at failed; cases failed
  | step _ _ done _ => rw [exhausted] at done; cases done

theorem of_limit {fault : Fault} {m : Machine} (running : x.machine.isRunning = true)
    (h : x.machine.attempt s = .failed fault m) (limit : fault.isLimit = true) :
    Barred s mark allowed x := by
  intro n z run
  cases run with
  | ended stopped => rw [running] at stopped; cases stopped
  | failed _ failed within =>
      rw [h] at failed
      cases failed
      rw [limit] at within
      cases within
  | step _ _ done _ => rw [h] at done; cases done

theorem of_forbidden {i : Instruction} (running : x.machine.isRunning = true)
    (fetched : x.fetch? s = some i) (h : ¬ allowed i x) : Barred s mark allowed x := by
  intro n z run
  cases run with
  | ended stopped => rw [running] at stopped; cases stopped
  | failed permitted _ _ => exact h (permitted i fetched)
  | step fetched' permitted _ _ =>
      rw [fetched] at fetched'
      cases fetched'
      exact h permitted

end Barred

/-! ### Stretches of a run -/

/-- What a stretch of a run needs: the count of instructions started when it is
over, registers, and open frames. -/
structure Demand where
  steps : Nat
  registers : Nat
  depth : Nat

namespace Demand

/-- The limits allow less than what is needed. -/
def Exceeds (d : Demand) (limits : Limits) : Prop :=
  limits.registers < d.registers ∨ (∃ limit, limits.steps = some limit ∧ limit < d.steps) ∨
    max 1 limits.depth < d.depth ∨ limits.operands < 2 * d.depth

/-- Needing no more in any respect. -/
structure Le (d d' : Demand) : Prop where
  steps : d.steps ≤ d'.steps
  registers : d.registers ≤ d'.registers
  depth : d.depth ≤ d'.depth

theorem Exceeds.mono {d d' : Demand} {limits : Limits} (h : d.Exceeds limits) (le : d.Le d') :
    d'.Exceeds limits := by
  have steps := le.steps
  have registers := le.registers
  have depth := le.depth
  rcases h with h | ⟨limit, known, h⟩ | h | h
  · exact .inl (by omega)
  · exact .inr (.inl ⟨limit, known, by omega⟩)
  · exact .inr (.inr (.inl (by omega)))
  · exact .inr (.inr (.inr (by omega)))

end Demand

/-- The machine gets to a state with the property, or the limits do not allow
what that needs and the run is never completed. -/
def Goes (s : Setting) (mark : Marking) (d : Demand) (x : Tracked) (Q : Tracked → Prop) : Prop :=
  (d.Exceeds s.limits ∧ Barred s mark Any x) ∨
    (¬ d.Exceeds s.limits ∧ ∃ n y, Steps s mark n x y ∧ Q y)

theorem Goes.bind {d d' : Demand} {Q Q' : Tracked → Prop} (h : Goes s mark d x Q)
    (le : d.Le d') (rest : ∀ y, Q y → Goes s mark d' y Q') : Goes s mark d' x Q' := by
  rcases h with ⟨exceeds, barred⟩ | ⟨-, n, y, steps, holds⟩
  · exact .inl ⟨exceeds.mono le, barred⟩
  · rcases rest y holds with ⟨exceeds, barred⟩ | ⟨within, n', y', steps', holds'⟩
    · exact .inl ⟨exceeds, barred.of_steps steps⟩
    · exact .inr ⟨within, n + n', y', steps.trans steps', holds'⟩

theorem Goes.mono {d : Demand} {Q Q' : Tracked → Prop} (h : Goes s mark d x Q)
    (imp : ¬ d.Exceeds s.limits → ∀ y, Q y → Q' y) : Goes s mark d x Q' := by
  rcases h with barred | ⟨within, n, y, steps, holds⟩
  · exact .inl barred
  · exact .inr ⟨within, n, y, steps, imp within y holds⟩

/-- A greater demand that the limits allow as soon as they allow this one. -/
theorem Goes.enlarge {d d' : Demand} {Q : Tracked → Prop} (h : Goes s mark d x Q) (le : d.Le d')
    (back : d'.Exceeds s.limits → d.Exceeds s.limits) : Goes s mark d' x Q := by
  rcases h with ⟨exceeds, barred⟩ | ⟨within, rest⟩
  · exact .inl ⟨exceeds.mono le, barred⟩
  · exact .inr ⟨fun exceeds => within (back exceeds), rest⟩

theorem Goes.barred {d : Demand} {Q : Tracked → Prop} (h : Goes s mark d x Q)
    (rest : ∀ y, Q y → Barred s mark allowed y) : Barred s mark allowed x := by
  rcases h with ⟨-, barred⟩ | ⟨-, n, y, steps, holds⟩
  · exact barred.of_any
  · exact (rest y holds).of_steps steps

/-- Like `Goes`, for a stretch at whose end the run is over. -/
def Ends (s : Setting) (mark : Marking) (d : Demand) (x : Tracked) (Q : Tracked → Prop) : Prop :=
  (d.Exceeds s.limits ∧ Barred s mark Any x) ∨
    (¬ d.Exceeds s.limits ∧ ∃ n z, Completes s mark Any n x z ∧ Q z)

theorem Ends.mono {d : Demand} {Q Q' : Tracked → Prop} (h : Ends s mark d x Q)
    (imp : ∀ z, Q z → Q' z) : Ends s mark d x Q' := by
  rcases h with barred | ⟨within, n, z, run, holds⟩
  · exact .inl barred
  · exact .inr ⟨within, n, z, run, imp z holds⟩

theorem Goes.stopped {d : Demand} {Q : Tracked → Prop} (h : Goes s mark d x Q)
    (stopped : ∀ y, Q y → y.machine.isRunning = false) : Ends s mark d x Q := by
  rcases h with barred | ⟨within, n, y, steps, holds⟩
  · exact .inl barred
  · exact .inr ⟨within, n, y, (Completes.ended (stopped y holds)).of_steps steps, holds⟩

/-- Like `Ends`, for a stretch whose last instruction fails with the given fault. -/
def Fails (s : Setting) (mark : Marking) (d : Demand) (fault : Fault) (x : Tracked)
    (Q : Tracked → Prop) : Prop :=
  (d.Exceeds s.limits ∧ Barred s mark Any x) ∨
    (¬ d.Exceeds s.limits ∧ ∃ n y m, Steps s mark n x y ∧ y.machine.attempt s = .failed fault m ∧
      fault.isLimit = false ∧ Q ⟨{ m with status := fault.status }, y.written, max y.peak m.top⟩)

theorem Fails.ends {d : Demand} {fault : Fault} {Q : Tracked → Prop}
    (h : Fails s mark d fault x Q) : Ends s mark d x Q := by
  rcases h with barred | ⟨within, n, y, m, steps, failed, limit, holds⟩
  · exact .inl barred
  · exact .inr ⟨within, n + 1, _,
      (Completes.failed (fun _ _ => trivial) failed limit).of_steps steps, holds⟩

theorem Goes.fails {d d' : Demand} {fault : Fault} {Q Q' : Tracked → Prop}
    (h : Goes s mark d x Q) (le : d.Le d') (rest : ∀ y, Q y → Fails s mark d' fault y Q') :
    Fails s mark d' fault x Q' := by
  rcases h with ⟨exceeds, barred⟩ | ⟨-, n, y, steps, holds⟩
  · exact .inl ⟨exceeds.mono le, barred⟩
  · rcases rest y holds with ⟨exceeds, barred⟩ | ⟨within, n', z, m, steps', failed⟩
    · exact .inl ⟨exceeds, barred.of_steps steps⟩
    · exact .inr ⟨within, n + n', z, m, steps.trans steps', failed⟩

theorem Fails.mono {d : Demand} {fault : Fault} {Q Q' : Tracked → Prop}
    (h : Fails s mark d fault x Q) (imp : ∀ z, Q z → Q' z) : Fails s mark d fault x Q' := by
  rcases h with barred | ⟨within, n, y, m, steps, failed, limit, holds⟩
  · exact .inl barred
  · exact .inr ⟨within, n, y, m, steps, failed, limit, imp _ holds⟩

/-! ### One instruction -/

theorem reachedLimit?_eq_none_iff {limits : Limits} {m : Machine} :
    m.reachedLimit? limits = none ↔ ∀ limit, limits.steps = some limit → m.steps < limit := by
  simp only [Machine.reachedLimit?]
  cases limits.steps with
  | none => simp
  | some limit => simp [Option.filter]

theorem size_operands {limits : Limits} {m : Machine} (h : Machine.Framed limits m) :
    m.operands.size = 2 * m.depth := by
  obtain ⟨flags, length, saved⟩ := h.saved
  rw [← Array.length_toList, saved, Machine.length_specials, length]

/-- What a machine demands that only executes one more instruction. -/
def demand (x : Tracked) (top : Nat) : Demand := ⟨x.machine.steps + 1, top, x.machine.depth⟩

theorem demand_exceeds_iff (framed : Machine.Framed s.limits x.machine) {top : Nat} :
    (x.demand top).Exceeds s.limits ↔
      s.limits.registers < top ∨ x.machine.reachedLimit? s.limits ≠ none := by
  have depth_le := framed.depth_le
  have operands_le := framed.operands_le
  rw [size_operands framed] at operands_le
  rw [ne_eq, reachedLimit?_eq_none_iff]
  simp only [Demand.Exceeds, demand]
  constructor
  · rintro (h | ⟨limit, known, h⟩ | h | h)
    · exact .inl h
    · refine .inr fun all => ?_
      have := all limit known
      omega
    · omega
    · omega
  · rintro (h | h)
    · exact .inl h
    · simp only [Classical.not_forall] at h
      obtain ⟨limit, known, h⟩ := h
      exact .inr (.inl ⟨limit, known, by omega⟩)

theorem attempt_of_fetch {i : Instruction} (running : x.machine.isRunning = true)
    (below : x.machine.reachedLimit? s.limits = none) (fetched : x.fetch? s = some i) :
    x.machine.attempt s =
      match Machine.dispatch s i x.machine.started with
      | .ok _ m => .done m
      | .error fault m => .failed fault m := by
  rw [fetch?] at fetched
  simp only [Machine.attempt, running, below, if_true, fetched, Machine.need, pure_bind]
  rfl

/-- An instruction that succeeds if there are registers up to `top`. -/
theorem Goes.of_dispatch (mark : Marking) (confined : s.IsConfined)
    (running : x.machine.isRunning = true)
    (framed : Machine.Framed s.limits x.machine) {i : Instruction}
    (fetched : x.fetch? s = some i) (top : Nat) {m : Machine}
    (fits : top ≤ s.limits.registers →
      Machine.dispatch s i x.machine.started = .ok () m)
    (fails : s.limits.registers < top → ∃ n,
      Machine.dispatch s i x.machine.started =
        .error .registerLimit n) :
    Goes s mark (x.demand top) x fun y =>
      y = x.after s mark i m ∧ Machine.Framed s.limits y.machine := by
  cases below : x.machine.reachedLimit? s.limits with
  | some limit =>
      exact .inl ⟨(demand_exceeds_iff framed).2 (.inr (by rw [below]; simp)),
        .of_exhausted running below⟩
  | none =>
      have attempt := attempt_of_fetch running below fetched
      by_cases room : top ≤ s.limits.registers
      · rw [fits room] at attempt
        refine .inr ⟨?_, 1, _, .head fetched attempt (.refl _), rfl, ?_⟩
        · rw [demand_exceeds_iff framed, below]
          simp
          omega
        · have after := Machine.step_framed confined framed
          rw [Machine.step, attempt] at after
          exact after
      · obtain ⟨n, error⟩ := fails (Nat.not_le.1 room)
        rw [error] at attempt
        exact .inl ⟨(demand_exceeds_iff framed).2 (.inl (Nat.not_le.1 room)),
          .of_limit running attempt rfl⟩

/-- An instruction that needs no more registers than there are in use. -/
theorem Goes.of_dispatch_free (mark : Marking) (confined : s.IsConfined)
    (running : x.machine.isRunning = true)
    (framed : Machine.Framed s.limits x.machine) {i : Instruction}
    (fetched : x.fetch? s = some i) {m : Machine}
    (ok : Machine.dispatch s i x.machine.started = .ok () m) :
    Goes s mark (x.demand x.machine.top) x fun y =>
      y = x.after s mark i m ∧ Machine.Framed s.limits y.machine :=
  .of_dispatch mark confined running framed fetched _ (fun _ => ok) fun short =>
    absurd framed.nested.bounds.2 (Nat.not_le.2 short)

/-- An instruction that fails, and not for want of registers, ends the run. -/
theorem Fails.of_dispatch (running : x.machine.isRunning = true)
    (framed : Machine.Framed s.limits x.machine) {i : Instruction}
    (fetched : x.fetch? s = some i) {fault : Fault} {m : Machine}
    (limit : fault.isLimit = false)
    (error : Machine.dispatch s i x.machine.started =
      .error fault m) :
    Fails s mark (x.demand x.machine.top) fault x fun z =>
      z = ⟨{ m with status := fault.status }, x.written, max x.peak m.top⟩ := by
  cases below : x.machine.reachedLimit? s.limits with
  | some limit =>
      exact .inl ⟨(demand_exceeds_iff framed).2 (.inr (by rw [below]; simp)),
        .of_exhausted running below⟩
  | none =>
      have attempt := attempt_of_fetch running below fetched
      rw [error] at attempt
      refine .inr ⟨?_, 0, x, m, .refl x, attempt, limit, rfl⟩
      rw [demand_exceeds_iff framed, below]
      have := framed.nested.bounds.2
      simp
      omega

/-- Where there is no instruction the run ends. -/
theorem Fails.of_no_instruction (running : x.machine.isRunning = true)
    (framed : Machine.Framed s.limits x.machine) (fetched : x.fetch? s = none) :
    Fails s mark (x.demand x.machine.top) .endOfCode x fun z =>
      z = ⟨{ x.machine.started with status := Fault.endOfCode.status }, x.written,
        max x.peak x.machine.top⟩ := by
  cases below : x.machine.reachedLimit? s.limits with
  | some limit =>
      exact .inl ⟨(demand_exceeds_iff framed).2 (.inr (by rw [below]; simp)),
        .of_exhausted running below⟩
  | none =>
      have attempt : x.machine.attempt s = .failed .endOfCode x.machine.started := by
        rw [fetch?] at fetched
        simp only [Machine.attempt, running, below, if_true, fetched, Machine.need]
        rfl
      refine .inr ⟨?_, 0, x, _, .refl x, attempt, rfl, rfl⟩
      rw [demand_exceeds_iff framed, below]
      have := framed.nested.bounds.2
      simp
      omega

/-! ### Runs that are computed -/

variable [∀ i x, Decidable (allowed i x)]

/-- The number of instructions and the end of a run that is completed within so many. -/
def completion? (s : Setting) (mark : Marking) (allowed : Instruction → Tracked → Prop)
    [∀ i x, Decidable (allowed i x)] : Nat → Tracked → Option (Nat × Tracked)
  | 0, _ => none
  | n + 1, x =>
    match x.machine.attempt s with
    | .ended _ => some (0, x)
    | .exhausted _ _ => none
    | .done m =>
      match x.fetch? s with
      | some i =>
        if allowed i x then
          (completion? s mark allowed n (x.after s mark i m)).map fun (k, z) => (k + 1, z)
        else none
      | none => none
    | .failed fault m =>
      if fault.isLimit = false ∧ ∀ i ∈ x.fetch? s, allowed i x then
        some (1, ⟨{ m with status := fault.status }, x.written, max x.peak m.top⟩)
      else none

theorem completes_of_completion? {n k : Nat} (h : completion? s mark allowed n x = some (k, z)) :
    Completes s mark allowed k x z := by
  induction n generalizing x k with
  | zero => cases h
  | succ n ih =>
      have attempted := x.machine.attempted s
      rw [completion?] at h
      cases outcome : x.machine.attempt s with
      | ended m =>
          rw [outcome] at h attempted
          cases h
          cases attempted with
          | ended stopped => exact .ended stopped
      | exhausted limit m =>
          rw [outcome] at h
          cases h
      | done m =>
          rw [outcome] at h
          cases fetched : x.fetch? s with
          | none =>
              rw [fetched] at h
              cases h
          | some i =>
              rw [fetched] at h
              dsimp only at h
              split at h
              · rename_i permitted
                obtain ⟨⟨k', z'⟩, rest, same⟩ := Option.map_eq_some_iff.1 h
                cases same
                exact .step fetched permitted outcome (ih rest)
              · cases h
      | failed fault m =>
          rw [outcome] at h
          dsimp only at h
          split at h
          · rename_i fine
            cases h
            exact .failed fine.2 outcome fine.1
          · cases h

end Tracked

end RegisterCode
