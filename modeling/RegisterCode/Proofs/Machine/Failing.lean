import RegisterCode.Proofs.Machine.Counting
import RegisterCode.Proofs.Machine.Instructions
import RegisterCode.Proofs.Machine.Isolation
import RegisterCode.Proofs.Machine.Leftovers

/-!
A step that fails leaves the scene as it was, so that whoever looks at the machine afterwards sees
where it happened. What an instruction changes before it can still fail is the top, which reading
an operand lowers, and what belongs to no frame; everything else it changes when nothing can go
wrong any more. The main statement is `scene_of_error`.
-/

namespace RegisterCode

namespace Machine

variable {α β : Type} {limits : Limits}

/-- The function and the place, the flag, the frames and the values in the registers are the same
before and after, and the top is not higher. -/
structure Spared (m n : Machine) : Prop where
  func : n.func = m.func
  place : n.place = m.place
  base : n.base = m.base
  flag : n.flag = m.flag
  halted : n.halted = m.halted
  frames : n.frames = m.frames
  operands : n.operands = m.operands
  registers : n.registers = m.registers
  top_le : n.top ≤ m.top

namespace Spared

/-- What may be different afterwards. -/
theorem aside (m : Machine) {top : Nat} (top_le : top ≤ m.top) (store : Store)
    (input : List UInt8) (output : String) (status : Status) (steps : Nat) :
    Spared m { m with
      top := top, store := store, input := input, output := output, status := status,
      steps := steps } :=
  ⟨rfl, rfl, rfl, rfl, rfl, rfl, rfl, rfl, top_le⟩

theorem refl (m : Machine) : Spared m m := aside m (Nat.le_refl _) ..

theorem trans {m n o : Machine} (h : Spared m n) (h' : Spared n o) : Spared m o where
  func := h'.func.trans h.func
  place := h'.place.trans h.place
  base := h'.base.trans h.base
  flag := h'.flag.trans h.flag
  halted := h'.halted.trans h.halted
  frames := h'.frames.trans h.frames
  operands := h'.operands.trans h.operands
  registers := h'.registers.trans h.registers
  top_le := Nat.le_trans h'.top_le h.top_le

end Spared

theorem Lowered.spared {m n : Machine} (h : Lowered m n) : Spared m n := by
  rw [h.same]
  exact .aside m h.le ..

theorem Failure.spared {count : UInt16} {m n : Machine} {p : Procedure}
    (h : Failure count m p n) : Spared m n := by
  cases h with
  | clean => exact .refl m
  | line input => exact .aside m (Nat.le_refl _) ..
  | leftover left => exact .aside m (Nat.le_refl _) ..

/-! ### Failing without harm -/

/-- The shape of a machine that is in a run: there is a frame to return from. -/
structure Poised (limits : Limits) (m : Machine) : Prop where
  framed : Framed limits m
  opened : m.frames ≠ #[]

theorem Poised.lowered {m n : Machine} (h : Poised limits m) (lowered : Lowered m n) :
    Poised limits n :=
  ⟨h.framed.of_inFrame lowered.inFrame, lowered.spared.frames ▸ h.opened⟩

/-- In a run, the action leaves the scene as it was if it fails. -/
def Spares (limits : Limits) (a : Action α) : Prop := FailsTo (Poised limits) Spared a

namespace Spares

variable {a : Action α} {f : α → Action β}

/-- Reading in front of what leaves the scene as it was. What was read can be relied on. -/
theorem bind_of {Q : α → Prop} (lowers : KeepsTo Lowered a)
    (sure : ∀ x m n, a m = .ok x n → Q x) (rest : ∀ x, Q x → Spares limits (f x)) :
    Spares limits (a >>= f) := by
  refine FailsTo.bind_of (Q := fun x m => Poised limits m ∧ Q x)
    (.of_keeps fun m => (lowers m).spared) (fun m x n poised ran => ?_)
    fun x m fault n holds => rest x holds.2 m fault n holds.1
  have lowered := lowers.ok ran
  exact ⟨⟨poised.lowered lowered, sure x m n ran⟩, fun o => lowered.spared.trans⟩

theorem bind (lowers : KeepsTo Lowered a) (rest : ∀ x, Spares limits (f x)) :
    Spares limits (a >>= f) :=
  bind_of (Q := fun _ => True) lowers (fun _ _ _ _ => trivial) fun x _ => rest x

theorem of_never (never : FailsOnly (fun _ => False) a) : Spares limits a :=
  FailsTo.of_never never

theorem last (spares : Spares limits a) (never : ∀ x, FailsOnly (fun _ => False) (f x)) :
    Spares limits (a >>= f) :=
  FailsTo.last spares never

end Spares

theorem advance_never : FailsOnly (fun _ => False) advance := .modify _

theorem write_spares (index : Nat) (v : Value) : Spares limits (write index v) := by
  intro m fault n _ failed
  have same : n = m := Traceless.write (P := fun _ => True) index v m fault n trivial failed
  rw [same]
  exact .refl m

theorem assign_spares (x : Operand) (v : Value) : Spares limits (assign x v) :=
  .bind (require_keeps _ _) fun _ => .bind (slot_keeps _) fun index =>
    .last (write_spares index v) fun _ => .modify _

theorem push_spares (v : Value) : Spares limits (push v) :=
  .bind .get fun m => .last (write_spares m.top v) fun _ => .modify _

theorem pop_ok {m n : Machine} {v : Value} (h : pop m = .ok v n) :
    m.base < m.top ∧ n = { m with top := m.top - 1 } := by
  by_cases room : m.base < m.top
  · rw [pop_of_lt room] at h
    cases found : m.registers[m.top - 1]? with
    | none =>
        rw [found] at h
        cases h
    | some w =>
        rw [found] at h
        cases h
        exact ⟨room, rfl⟩
  · cases (pop_of_le (Nat.not_lt.1 room)).symm.trans h

/-- Where two values were taken off there is room for one. -/
theorem binary_spares (op : BinaryOp) : Spares limits (binary op) := by
  intro m fault n poised failed
  rcases bind_eq_error_iff.1 failed with first | ⟨right, m', ran, rest⟩
  · exact (pop_lowered.error first).spared
  rcases bind_eq_error_iff.1 rest with second | ⟨left, m'', ran', -⟩
  · exact (pop_lowered.ok ran).spared.trans (pop_lowered.error second).spared
  obtain ⟨-, rfl⟩ := pop_ok ran
  have two : m.base < m.top - 1 := (pop_ok ran').1
  have room : m.base + 2 ≤ m.top := by omega
  have top_le := poised.framed.seated.top_le
  rw [binary_apply room (Array.getElem?_eq_getElem (by omega))
    (Array.getElem?_eq_getElem (by omega))] at failed
  split at failed
  · cases failed
  · cases failed
    exact .aside m (Nat.sub_le _ _) ..

theorem jumpWhen_spares (s : Setting) (i : Instruction) (taken : Bool) :
    Spares limits (jumpWhen s i taken) := by
  refine .bind (operand_keeps i 0) fun x => .bind (load_lowered s x) fun v => ?_
  refine .bind (need_keeps _ _) fun cond => .bind (operand_keeps i 1) fun y => ?_
  refine .bind (jumpTarget_lowered s y) fun target => .of_never (.bind (.modify _) fun _ => ?_)
  split <;> exact .modify _

theorem call_spares (s : Setting) (func argc : Nat) : Spares limits (call s func argc) := by
  intro m fault n _ failed
  by_cases callable : Callable s func argc m
  · cases (call_of_callable callable).symm.trans failed
  · obtain ⟨fault', fails⟩ := call_of_not_callable callable
    cases fails.symm.trans failed
    exact .refl m

/-- With a frame to return from, only the place for the result can be missing. -/
theorem ret_spares (v : Value) : Spares limits (ret v) := by
  intro m fault n poised failed
  by_cases inside : m.base < m.registers.size
  · obtain ⟨frames, frame, saved, flag, hframes, hoperands⟩ := poised.framed.split poised.opened
    cases (ret_of_lt v inside hframes hoperands).symm.trans failed
  · cases (ret_of_le v (Nat.not_lt.1 inside)).symm.trans failed
    exact .refl m

theorem run_spares {p : Procedure} (known : p ∈ Procedure.standard) (count : UInt16) :
    Spares limits (p.run count) :=
  fun _ _ _ poised failed =>
    (Procedure.standard_failure known poised.framed.seated failed).spared

/-- Each instruction leaves the scene as it was if it fails. -/
theorem dispatch_spares {s : Setting} (standard : s.procedures = Procedure.standard)
    (i : Instruction) : Spares limits (dispatch s i) := by
  by_cases isCall : i.op = .call
  · rw [dispatch_call isCall]
    exact .bind (callee_lowered s i) fun target => call_spares s target.1 target.2
  by_cases isRet : i.op = .ret
  · rw [dispatch_ret isRet]
    exact .bind (result_lowered s i) fun v => ret_spares v
  unfold dispatch
  cases op : i.op with
  | nop => exact .of_never advance_never
  | mov =>
      refine .bind (operand_keeps i 0) fun dest => .bind (operand_keeps i 1) fun x => ?_
      refine .bind (load_lowered s x) fun v => ?_
      exact .last (assign_spares dest v) fun _ => advance_never
  | push =>
      refine .bind (operand_keeps i 0) fun x => .bind (load_lowered s x) fun v => ?_
      exact .last (push_spares v) fun _ => advance_never
  | neg =>
      refine .bind (operand_keeps i 0) fun dest => .bind (require_keeps _ _) fun _ => ?_
      refine .bind (load_lowered s dest) fun v => .bind (require_keeps _ _) fun _ => ?_
      exact .last (assign_spares dest _) fun _ => advance_never
  | binary b => exact .last (binary_spares b) fun _ => advance_never
  | jump =>
      refine .bind (operand_keeps i 0) fun x => .bind (jumpTarget_lowered s x) fun place => ?_
      exact .of_never (.modify _)
  | jumpIf => exact jumpWhen_spares s i true
  | jumpElse => exact jumpWhen_spares s i false
  | call => exact absurd op isCall
  | nativeCall =>
      refine .bind_of (Q := fun request => request.1 ∈ Procedure.standard)
        (requested_lowered s i) (fun request m n asked => ?_) fun request known => ?_
      · exact standard ▸ requested_mem asked
      · exact .last (run_spares known request.2) fun _ => advance_never
  | ret => exact absurd op isRet
  | halt => exact .of_never (.modify _)

/-! ### Steps -/

/-- The status that an attempt ends the run with, if it does so with an error. -/
def Outcome.error? : Outcome → Option Status
  | .ended _ | .done _ => none
  | .exhausted _ _ => some .anyError
  | .failed fault _ => some fault.status

theorem step_of_not_running {s : Setting} {m : Machine} (stopped : m.isRunning = false) :
    m.step s = (false, m) := by
  rw [step, attempt_of_not_running stopped, Outcome.settle]

/-- A machine that is not running stays as it is. -/
theorem afterSteps_of_not_running {s : Setting} {m : Machine} (stopped : m.isRunning = false)
    (k : Nat) : m.afterSteps s k = m := by
  induction k with
  | zero => rfl
  | succ k ih => rw [afterSteps, ih, step_of_not_running stopped]

/-- A running machine whose step leaves it with an error: it keeps the scene, and the error is that
of the attempt. -/
theorem Reachable.spared {s : Setting} (standard : s.procedures = Procedure.standard) {m : Machine}
    (reachable : Reachable s m) (running : m.isRunning = true)
    (failed : (m.step s).2.status ≠ .ok) :
    (m.step s).1 = false ∧ Spared m (m.step s).2 ∧
      (m.attempt s).error? = some (m.step s).2.status := by
  have confined : s.IsConfined := fun p known => standard_isConfined p (standard ▸ known)
  obtain ⟨input, moves, rfl⟩ := reachable
  have framed := afterMoves_framed confined (.initial s.limits input) moves
  generalize (initial s.limits input).afterMoves s moves = m at *
  obtain ⟨-, opened, status⟩ := isRunning_iff.1 running
  have started : Poised s.limits { m with steps := m.steps + 1 } :=
    ⟨framed.congr rfl rfl rfl rfl rfl, opened⟩
  have attempted := attempted s m
  rw [step] at failed ⊢
  generalize m.attempt s = outcome at attempted failed
  cases attempted with
  | ended stopped => exact absurd running (Bool.eq_false_iff.1 stopped)
  | exhausted reached => exact ⟨rfl, .aside m (Nat.le_refl _) .., rfl⟩
  | lost running below none => exact ⟨rfl, .aside m (Nat.le_refl _) .., rfl⟩
  | @done i n running below fetched ok =>
      exact absurd (dispatch_status confined started.framed status opened ok) failed
  | @failed i fault n running below fetched error =>
      have before : Spared m { m with steps := m.steps + 1 } := .aside m (Nat.le_refl _) ..
      have spared : Spared { m with steps := m.steps + 1 } n :=
        dispatch_spares standard i _ fault n started error
      have after : Spared n { n with status := fault.status } := .aside n (Nat.le_refl _) ..
      exact ⟨rfl, (before.trans spared).trans after, rfl⟩

/-- Let a step end the run with an error, in a machine that a host with the standard procedures
brought about. Then the function and the place are still those of the instruction that failed, the
base, the flag, the frames, the operand stack and the content of every register are as they were,
the top is not higher, and the status is the error. All further steps are refused and change
nothing. -/
theorem scene_of_error (limits : Limits) (program : Program) :
    let s : Setting := ⟨limits, program, Procedure.standard⟩
    ∀ m, Reachable s m → m.isRunning = true → (m.step s).2.status ≠ .ok →
      ((m.step s).1 = false ∧ Spared m (m.step s).2 ∧
        (m.attempt s).error? = some (m.step s).2.status) ∧
      ∀ k, ((m.step s).2.afterSteps s k).step s = (false, (m.step s).2) := by
  intro s m reachable running failed
  refine ⟨reachable.spared rfl running failed, fun k => ?_⟩
  have stopped : (m.step s).2.isRunning = false := by
    rw [Bool.eq_false_iff]
    exact fun still => failed (isRunning_iff.1 still).2.2
  rw [afterSteps_of_not_running stopped, step_of_not_running stopped]

/-- A program that takes a value off the frame before it finds no register to put it in. -/
def droppingMove : Setting where
  limits := ⟨4, 4, 2, none⟩
  program := {
    chunks := #[#[.make .push [.immediate 5], .make .mov [.immediate 0, .stack]]]
    constants := #[]
    entry := some 0 }
  procedures := Procedure.standard

theorem scene_of_droppingMove :
    let m := (initial droppingMove.limits []).afterMoves droppingMove [.begin, .step]
    (m.step droppingMove).2.top < m.top ∧
      ((m.step droppingMove).1 = false ∧ Spared m (m.step droppingMove).2 ∧
        (m.attempt droppingMove).error? = some (m.step droppingMove).2.status) ∧
      ∀ k, ((m.step droppingMove).2.afterSteps droppingMove k).step droppingMove =
        (false, (m.step droppingMove).2) :=
  ⟨by decide, scene_of_error droppingMove.limits droppingMove.program _
    ⟨[], [.begin, .step], rfl⟩ rfl (by decide)⟩

end Machine

end RegisterCode
