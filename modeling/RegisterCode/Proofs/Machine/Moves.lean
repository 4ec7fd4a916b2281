import RegisterCode.Proofs.Machine.Nesting

/-!
What a host can do with a machine: start runs, take steps, read arguments and
answer in between, and change the store. Whatever it does, and whatever program
the machine was given, the machine keeps its shape, and so no register index
computed from the base and the top is out of range.
-/

namespace RegisterCode

namespace Machine

/-! ### Steps -/

theorem isRunning_iff {m : Machine} :
    m.isRunning = true ↔ m.halted = false ∧ m.frames ≠ #[] ∧ m.status = .ok := by
  simp [isRunning, Status.isOk, and_assoc]

theorem call_framed {s : Setting} {func argc : Nat} {m : Machine} (h : Framed s.limits m)
    (status : m.status = .ok) : Framed s.limits (leaves (call s func argc) m) := by
  by_cases callable : Callable s func argc m
  · rw [leaves_of_ok (call_of_callable callable)]
    exact h.called callable status
  · obtain ⟨fault, fails⟩ := call_of_not_callable callable
    rw [leaves_of_error fails]
    exact h

theorem ret_framed {limits : Limits} {m : Machine} (v : Value) (h : Framed limits m)
    (opened : m.frames ≠ #[]) : Framed limits (leaves (ret v) m) := by
  by_cases inside : m.base < m.registers.size
  · obtain ⟨frames, frame, saved, flag, hframes, hoperands⟩ := h.split opened
    rw [leaves_of_ok (ret_of_lt v inside hframes hoperands)]
    exact h.returned v inside hframes hoperands
  · rw [leaves_of_error (ret_of_le v (Nat.not_lt.1 inside))]
    exact h

/-- An action that only lowers the top in front of one that keeps the shape. -/
theorem framed_bind_of_lowered {α : Type} {limits : Limits} {m : Machine} {a : Action α}
    {f : α → Action Unit} (lowers : KeepsTo Lowered a) (h : Framed limits m)
    (status : m.status = .ok) (opened : m.frames ≠ #[])
    (rest : ∀ x n, Framed limits n → n.status = .ok → n.frames ≠ #[] →
      Framed limits (leaves (f x) n)) :
    Framed limits (leaves (a >>= f) m) := by
  cases run : a m with
  | ok x n =>
      have lowered := lowers.ok run
      rw [leaves, bind_of_ok run]
      refine rest x n (h.of_inFrame lowered.inFrame) ?_ ?_
      · rw [lowered.same]
        exact status
      · rw [lowered.same]
        exact opened
  | error fault n =>
      rw [leaves, bind_of_error run]
      exact h.of_inFrame (lowers.error run).inFrame

/-- Each instruction keeps the shape, whether it succeeds or fails. -/
theorem dispatch_framed {s : Setting} (confined : s.IsConfined) {m : Machine}
    (h : Framed s.limits m) (status : m.status = .ok) (opened : m.frames ≠ #[])
    (i : Instruction) : Framed s.limits (leaves (dispatch s i) m) := by
  by_cases isCall : i.op = .call
  · rw [dispatch_call isCall]
    exact framed_bind_of_lowered (callee_lowered s i) h status opened
      fun _ _ h status _ => call_framed h status
  · by_cases isRet : i.op = .ret
    · rw [dispatch_ret isRet]
      exact framed_bind_of_lowered (result_lowered s i) h status opened
        fun v _ h _ opened => ret_framed v h opened
    · exact h.of_inFrame (dispatch_inFrame confined isCall isRet m)

/-- A machine that is fine is fine after an instruction that does not fail. -/
theorem dispatch_status {s : Setting} (confined : s.IsConfined) {m n : Machine}
    (framed : Framed s.limits m) (status : m.status = .ok) (opened : m.frames ≠ #[])
    {i : Instruction} (ok : dispatch s i m = .ok () n) : n.status = .ok := by
  by_cases isCall : i.op = .call
  · rw [dispatch_call isCall] at ok
    obtain ⟨⟨func, argc⟩, m', loads, calls⟩ := bind_eq_ok_iff.1 ok
    obtain ⟨-, rfl⟩ := call_ok calls
    have lowered := (callee_lowered s i).ok loads
    rw [called, lowered.same]
    exact status
  · by_cases isRet : i.op = .ret
    · rw [dispatch_ret isRet] at ok
      obtain ⟨v, m', loads, rets⟩ := bind_eq_ok_iff.1 ok
      have lowered := (result_lowered s i).ok loads
      have opened' : m'.frames ≠ #[] := by rwa [lowered.same]
      obtain ⟨frames, frame, saved, flag, frames_eq, operands_eq⟩ :=
        (framed.of_inFrame lowered.inFrame).split opened'
      by_cases inside : m'.base < m'.registers.size
      · rw [ret_of_lt v inside frames_eq operands_eq] at rets
        cases rets
        rfl
      · rw [ret_of_le v (Nat.not_lt.1 inside)] at rets
        cases rets
    · obtain ⟨-, same⟩ := (dispatch_inFrame confined isCall isRet).ok ok framed.seated
      exact same.status.trans status

/-- What an attempt at a step can come to. -/
inductive Attempted (s : Setting) (m : Machine) : Outcome → Prop where
  | ended (stopped : m.isRunning = false) : Attempted s m (.ended m)
  | exhausted {limit : Nat} (reached : m.reachedLimit? s.limits = some limit) :
      Attempted s m (.exhausted limit m)
  | lost (running : m.isRunning = true) (below : m.reachedLimit? s.limits = none)
      (none : s.program.fetch? m.func m.place = none) :
      Attempted s m (.failed .endOfCode { m with steps := m.steps + 1 })
  | done {i : Instruction} {n : Machine} (running : m.isRunning = true)
      (below : m.reachedLimit? s.limits = none)
      (fetched : s.program.fetch? m.func m.place = some i)
      (ok : dispatch s i { m with steps := m.steps + 1 } = .ok () n) :
      Attempted s m (.done n)
  | failed {i : Instruction} {fault : Fault} {n : Machine} (running : m.isRunning = true)
      (below : m.reachedLimit? s.limits = none)
      (fetched : s.program.fetch? m.func m.place = some i)
      (error : dispatch s i { m with steps := m.steps + 1 } = .error fault n) :
      Attempted s m (.failed fault n)

theorem attempted (s : Setting) (m : Machine) : Attempted s m (m.attempt s) := by
  cases running : m.isRunning with
  | false =>
      simp only [attempt, running]
      exact .ended running
  | true =>
      cases below : m.reachedLimit? s.limits with
      | some limit =>
          simp only [attempt, running, below, if_true]
          exact .exhausted below
      | none =>
          simp only [attempt, running, below, if_true]
          cases fetched : s.program.fetch? m.func m.place with
          | none => exact .lost running below fetched
          | some i =>
              cases result : dispatch s i { m with steps := m.steps + 1 } with
              | ok u n =>
                  simp only [need, pure_bind, result]
                  exact .done running below fetched result
              | error fault n =>
                  simp only [need, pure_bind, result]
                  exact .failed running below fetched result

theorem step_framed {s : Setting} (confined : s.IsConfined) {m : Machine}
    (h : Framed s.limits m) : Framed s.limits (m.step s).2 := by
  have started : Framed s.limits { m with steps := m.steps + 1 } :=
    h.congr rfl rfl rfl rfl rfl
  have attempted := attempted s m
  rw [step]
  generalize m.attempt s = outcome at attempted
  cases attempted with
  | ended stopped => exact h
  | exhausted reached => exact h.congr rfl rfl rfl rfl rfl
  | lost running below none => exact h.congr rfl rfl rfl rfl rfl
  | @done i n running below fetched ok =>
      obtain ⟨-, opened, status⟩ := isRunning_iff.1 running
      exact leaves_of_ok ok ▸ dispatch_framed confined started status opened i
  | @failed i fault n running below fetched error =>
      obtain ⟨-, opened, status⟩ := isRunning_iff.1 running
      have left : Framed s.limits n :=
        leaves_of_error error ▸ dispatch_framed confined started status opened i
      exact left.congr rfl rfl rfl rfl rfl

theorem enter_of_le {limits : Limits} (func : Nat) (m : Machine) (h : 2 ≤ limits.operands) :
    enter limits func (m.cleared limits) = .ok ⟨⟩ { m.cleared limits with
      func := func
      operands := #[.int 0, .bool false]
      frames := #[⟨func, 0, 0, 0⟩] } := by
  have room : ({ m.cleared limits with func := func } : Machine).operands.size + 2 ≤
      limits.operands := h
  rw [enter, bind_apply, modify_apply]
  dsimp only
  rw [bind_of_ok (saveSpecials_of_le room)]
  rfl

theorem enter_of_lt {limits : Limits} (func : Nat) (m : Machine) (h : limits.operands < 2) :
    enter limits func (m.cleared limits) =
      .error .operandStackLimit { m.cleared limits with func := func } := by
  have full : limits.operands <
      ({ m.cleared limits with func := func } : Machine).operands.size + 2 := h
  rw [enter, bind_apply, modify_apply]
  dsimp only
  rw [bind_of_error (saveSpecials_of_lt full)]

theorem begin_of_none {s : Setting} (m : Machine) (none : s.program.entry? = none) :
    m.begin s = { m.cleared s.limits with status := .entryError } := by
  rw [begin, none]

theorem begin_of_le {s : Setting} {func : Nat} (m : Machine) (entry : s.program.entry? = some func)
    (h : 2 ≤ s.limits.operands) : m.begin s = { m.cleared s.limits with
      func := func
      operands := #[.int 0, .bool false]
      frames := #[⟨func, 0, 0, 0⟩] } := by
  rw [begin, entry]
  simp only [enter_of_le func m h]

theorem begin_of_lt {s : Setting} {func : Nat} (m : Machine) (entry : s.program.entry? = some func)
    (h : s.limits.operands < 2) :
    m.begin s = { m.cleared s.limits with func := func, status := .memError } := by
  rw [begin, entry]
  simp only [enter_of_lt func m h]
  rfl

theorem begin_framed (s : Setting) (m : Machine) : Framed s.limits (m.begin s) := by
  have cleared : Framed s.limits (m.cleared s.limits) :=
    (Framed.initial s.limits m.input).congr rfl rfl rfl rfl rfl
  rw [begin]
  cases s.program.entry? with
  | none => exact cleared.congr rfl rfl rfl rfl rfl
  | some func =>
      by_cases room : 2 ≤ s.limits.operands
      · simp only [enter_of_le func m room]
        refine ⟨cleared.size, ⟨?_, ?_, ?_, ?_, cleared.nested⟩, ⟨[false], rfl, rfl⟩, room, ?_⟩
        · exact Nat.le_refl 0
        · exact Nat.zero_le _
        · exact Nat.le_refl 0
        · exact Nat.le_refl 0
        · exact Nat.le_max_left 1 _
      · simp only [enter_of_lt func m (Nat.not_le.1 room)]
        exact cleared.congr rfl rfl rfl rfl rfl

/-! ### Moves of the host -/

/-- What the host of a machine can do with it. -/
inductive Move where
  | begin
  | step
  /-- Reads an argument as a procedure with `count` arguments would. -/
  | argument (count index : UInt16)
  /-- Answers as a procedure with `count` arguments would. -/
  | answer (v : Value) (count : UInt16)
  | changeStore (store : Store)

def Move.perform (s : Setting) (m : Machine) : Move → Machine
  | .begin => m.begin s
  | .step => (m.step s).2
  | .argument count index => leaves (Machine.argument count index) m
  | .answer v count => leaves (Machine.answer v count) m
  | .changeStore store => { m with store := store }

/-- The machine after a list of moves. -/
def afterMoves (s : Setting) (m : Machine) (moves : List Move) : Machine :=
  moves.foldl (Move.perform s) m

/-- The machines that a host can bring about. -/
def Reachable (s : Setting) (m : Machine) : Prop :=
  ∃ input moves, m = (initial s.limits input).afterMoves s moves

theorem Move.perform_framed {s : Setting} (confined : s.IsConfined) {m : Machine}
    (h : Framed s.limits m) (move : Move) : Framed s.limits (move.perform s m) := by
  cases move with
  | begin => exact begin_framed s m
  | step => exact step_framed confined h
  | argument count index => exact h.of_inFrame (argument_keeps index m)
  | answer v count => exact h.of_inFrame (answer_confined v m).inFrame
  | changeStore store => exact h.congr rfl rfl rfl rfl rfl

theorem afterMoves_framed {s : Setting} (confined : s.IsConfined) {m : Machine}
    (h : Framed s.limits m) (moves : List Move) : Framed s.limits (m.afterMoves s moves) := by
  induction moves generalizing m with
  | nil => exact h
  | cons move moves ih => exact ih (move.perform_framed confined h)

/-! ### Parts of an instruction -/

/-- What instructions and procedures are made of, as far as it happens inside
one frame. -/
inductive Part where
  | load (x : Operand)
  | assign (x : Operand) (v : Value)
  | push (v : Value)
  | pop
  | answer (v : Value) (count : UInt16)
  /-- A change of what belongs to no frame. -/
  | world (flag : Bool) (store : Store) (input : List UInt8) (output : String)

def Part.perform (s : Setting) (m : Machine) : Part → Machine
  | .load x => leaves (Machine.load s x) m
  | .assign x v => leaves (Machine.assign x v) m
  | .push v => leaves (Machine.push v) m
  | .pop => leaves Machine.pop m
  | .answer v count => leaves (Machine.answer v count) m
  | .world flag store input output =>
    { m with flag := flag, store := store, input := input, output := output }

/-- The machine after a list of parts of an instruction. -/
def afterParts (s : Setting) (m : Machine) (parts : List Part) : Machine :=
  parts.foldl (Part.perform s) m

theorem Part.perform_framed {s : Setting} {m : Machine} (h : Framed s.limits m)
    (part : Part) : Framed s.limits (part.perform s m) := by
  cases part with
  | load x => exact h.of_inFrame (load_lowered s x m).inFrame
  | assign x v => exact h.of_inFrame (assign_inFrame x v m)
  | push v => exact h.of_inFrame (push_inFrame v m)
  | pop => exact h.of_inFrame (pop_lowered m).inFrame
  | answer v count => exact h.of_inFrame (answer_confined v m).inFrame
  | world flag store input output => exact h.congr rfl rfl rfl rfl rfl

theorem afterParts_framed {s : Setting} {m : Machine} (h : Framed s.limits m)
    (parts : List Part) : Framed s.limits (m.afterParts s parts) := by
  induction parts generalizing m with
  | nil => exact h
  | cons part parts ih => exact ih (part.perform_framed h)

/-- The register indices computed from the base and the top are in range, and
the subtractions they are computed with do not fall below zero. -/
structure InRange (s : Setting) (m : Machine) : Prop where
  base_le : m.base ≤ m.top
  pop_fault : ∀ fault n, pop m = .error fault n → fault = .emptyFrame
  pop_top : ∀ v n, pop m = .ok v n → n.top + 1 = m.top
  argument_fault : ∀ count index fault n, argument count index m = .error fault n →
    fault = .noSuchArgument ∨ fault = .missingArguments
  answer_fault : ∀ v count fault n, answer v count m = .error fault n →
    fault = .noResultRegister ∨ fault = .missingArguments
  first_add : ∀ count first n, firstArgument count m = .ok first n →
    first + count.toNat = m.top
  call_add : ∀ func argc n, call s func argc m = .ok () n → n.base + argc = m.top

theorem pop_of_seated {m : Machine} (seated : Seated m) (h : m.base < m.top) :
    ∃ v, pop m = .ok v { m with top := m.top - 1 } := by
  have inside : m.top - 1 < m.registers.size := by
    have := seated.top_le
    omega
  refine ⟨m.registers[m.top - 1], ?_⟩
  rw [pop_of_lt h, Array.getElem?_eq_getElem inside]
  rfl

theorem argument_fault_of_seated {m n : Machine} (seated : Seated m) {count index : UInt16}
    {fault : Fault} (h : argument count index m = .error fault n) :
    fault = .noSuchArgument ∨ fault = .missingArguments := by
  have top_le := seated.top_le
  by_cases named : index < count
  · by_cases room : m.base + count.toNat ≤ m.top
    · have named' : index.toNat < count.toNat := UInt16.lt_iff_toNat_lt.1 named
      have inside : m.top - count.toNat + index.toNat < m.registers.size := by omega
      rw [argument_of_lt named, bind_of_ok (firstArgument_of_le room), read_of_lt inside] at h
      cases h
    · rw [argument_of_lt named, bind_of_error (firstArgument_of_lt (Nat.not_le.1 room))] at h
      cases h
      exact .inr rfl
  · rw [argument_of_not_lt named] at h
    cases h
    exact .inl rfl

theorem answer_fault_of_seated {m n : Machine} (seated : Seated m) {v : Value} {count : UInt16}
    {fault : Fault} (h : answer v count m = .error fault n) :
    fault = .noResultRegister ∨ fault = .missingArguments := by
  have top_le := seated.top_le
  by_cases none : count = 0
  · rw [none, answer_zero] at h
    cases h
    exact .inl rfl
  · by_cases room : m.base + count.toNat ≤ m.top
    · have some : count.toNat ≠ 0 := fun zero => none (UInt16.toNat_inj.1 zero)
      have inside : m.top - count.toNat < m.registers.size := by omega
      rw [answer_of_ne_zero none, bind_of_ok (firstArgument_of_le room),
        write_of_lt v inside] at h
      cases h
    · rw [answer_of_ne_zero none, bind_of_error (firstArgument_of_lt (Nat.not_le.1 room))] at h
      cases h
      exact .inr rfl

theorem Seated.inRange {m : Machine} (seated : Seated m) (s : Setting) : InRange s m where
  base_le := seated.base_le
  pop_fault := by
    intro fault n h
    by_cases holds : m.base < m.top
    · obtain ⟨v, takes⟩ := pop_of_seated seated holds
      rw [takes] at h
      cases h
    · rw [pop_of_le (Nat.not_lt.1 holds)] at h
      cases h
      rfl
  pop_top := by
    intro v n h
    by_cases holds : m.base < m.top
    · obtain ⟨w, takes⟩ := pop_of_seated seated holds
      rw [takes] at h
      cases h
      exact Nat.sub_add_cancel (Nat.one_le_of_lt holds)
    · rw [pop_of_le (Nat.not_lt.1 holds)] at h
      cases h
  argument_fault _ _ _ _ := argument_fault_of_seated seated
  answer_fault _ _ _ _ := answer_fault_of_seated seated
  first_add := by
    intro count first n h
    by_cases room : m.base + count.toNat ≤ m.top
    · rw [firstArgument_of_le room] at h
      cases h
      omega
    · rw [firstArgument_of_lt (Nat.not_le.1 room)] at h
      cases h
  call_add := by
    intro func argc n h
    obtain ⟨callable, rfl⟩ := call_ok h
    have argc_le := callable.argc_le
    show m.top - argc + argc = m.top
    omega

/-- Whatever the host does with a machine that has the standard procedures, and
whatever the program is, the machine keeps its shape; and at every point inside
an instruction the register indices are in range. -/
theorem framed_afterMoves (limits : Limits) (program : Program) (input : List UInt8)
    (moves : List Move) :
    let s : Setting := ⟨limits, program, Procedure.standard⟩
    let m := (initial limits input).afterMoves s moves
    Framed limits m ∧ ∀ parts, InRange s (m.afterParts s parts) := by
  intro s m
  have framed : Framed limits m :=
    afterMoves_framed (s := s) standard_isConfined (.initial limits input) moves
  exact ⟨framed, fun parts => (afterParts_framed (s := s) framed parts).seated.inRange s⟩

end Machine

end RegisterCode
