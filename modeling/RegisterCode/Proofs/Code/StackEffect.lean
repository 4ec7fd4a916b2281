import RegisterCode.Proofs.Code.Match
import RegisterCode.Proofs.Machine.Failing

/-!
What an instruction does to the top of the frame can be read off it without executing it. Emission
counts on that when it gives numbers to registers: each operand from the stack lowers the top by
one, a push raises it, an operator lowers it, and a value that is stored raises it past its
register. The main statement is `stack_effect`.
-/

namespace RegisterCode

/-- How many operands an opcode reads from its slots. -/
def Opcode.operandCount : Opcode → Nat
  | nop | halt | binary _ => 0
  | push | neg | jump | ret => 1
  | mov | jumpIf | jumpElse | call | nativeCall => 2

/-- How many values reading an operand takes off the frame. -/
def Mode.taken (mode : Mode) : Nat := if mode = .stack then 1 else 0

namespace Instruction

variable {i : Instruction}

theorem stackDelta_eq (i : Instruction) : i.stackDelta =
    i.op.stackDelta - ((List.range i.arity).map fun slot =>
      ((i.mode? slot).map Mode.taken).getD 0).sum := by
  have counted (slots : List Nat) : slots.countP (fun slot => i.mode? slot = some .stack) =
      (slots.map fun slot => ((i.mode? slot).map Mode.taken).getD 0).sum := by
    induction slots with
    | nil => rfl
    | cons slot slots ih =>
        rw [List.countP_cons, List.map_cons, List.sum_cons, ih, Nat.add_comm]
        congr 1
        rcases i.mode? slot with _ | _ | _ | _ | _ | _ <;> rfl
  rw [stackDelta, counted]

theorem stackDelta_of_none (arity : i.arity = 0) : i.stackDelta = i.op.stackDelta := by
  rw [stackDelta_eq, arity]
  exact Int.sub_zero _

theorem stackDelta_of_one (arity : i.arity = 1) {x : Operand} (first : i.operand? 0 = some x) :
    i.stackDelta = i.op.stackDelta - x.mode.taken := by
  obtain ⟨mode, here, rfl⟩ := Option.map_eq_some_iff.1 first
  rw [stackDelta_eq, arity]
  simp [List.range_succ, here]

theorem stackDelta_of_two (arity : i.arity = 2) {x y : Operand} (first : i.operand? 0 = some x)
    (second : i.operand? 1 = some y) :
    i.stackDelta = i.op.stackDelta - (x.mode.taken + y.mode.taken : Nat) := by
  obtain ⟨mode, here, rfl⟩ := Option.map_eq_some_iff.1 first
  obtain ⟨mode', here', rfl⟩ := Option.map_eq_some_iff.1 second
  rw [stackDelta_eq, arity]
  simp [List.range_succ, here, here']

end Instruction

namespace Machine

variable {s : Setting} {i : Instruction} {m n : Machine} {x : Operand} {v : Value}

/-! ### The parts of an instruction -/

theorem operand_ok {slot : Nat} (h : operand i slot m = .ok x n) :
    n = m ∧ i.operand? slot = some x :=
  need_ok h

/-- Only an operand from the stack changes the machine that reads it. -/
theorem load_still (mode : x.mode ≠ .stack) : KeepsTo Still (load s x) := by
  unfold load
  cases is : x.mode with
  | immediate => exact .pure _
  | constant =>
      dsimp only
      split
      · exact .throw _
      · exact need_keeps _ _
  | register => exact .bind (slot_keeps _) fun index => read_keeps index
  | stack => exact absurd is mode
  | object =>
      dsimp only
      split
      · exact .throw _
      · exact .pure _

/-- Reading an operand lowers the top by what it takes off the frame. -/
theorem top_of_load (h : load s x m = .ok v n) :
    n.top + x.mode.taken = m.top ∧ n.base = m.base := by
  by_cases mode : x.mode = .stack
  · have pops : load s x = pop := by rw [load, mode]
    rw [pops] at h
    obtain ⟨some, rfl⟩ := pop_ok h
    rw [mode]
    exact ⟨Nat.sub_add_cancel (Nat.one_le_of_lt some), rfl⟩
  · obtain rfl : n = m := (load_still mode).ok h
    rw [Mode.taken, if_neg mode]
    exact ⟨rfl, rfl⟩

theorem top_of_count {k : Nat} (h : count s x m = .ok k n) : n.top + x.mode.taken = m.top := by
  obtain ⟨v, m', loaded, rest⟩ := bind_eq_ok_iff.1 h
  have still : n = m' := by
    cases v with
    | int number =>
        dsimp only at rest
        split at rest
        · cases rest
        · cases rest
          rfl
    | _ => cases rest
  rw [still]
  exact (top_of_load loaded).1

/-- The target of a jump is not taken off the frame. -/
theorem top_of_jumpTarget {place : Nat} (h : jumpTarget s x m = .ok place n) :
    x.mode.taken = 0 ∧ n.top = m.top := by
  by_cases mode : x.mode = .immediate
  · obtain ⟨_, m₁, required, counted⟩ := bind_eq_ok_iff.1 h
    have still : KeepsTo Still (require (x.mode = .immediate) .indirectJump) := require_keeps _ _
    obtain rfl : m₁ = m := still.ok required
    have top := top_of_count counted
    rw [mode] at top ⊢
    exact ⟨rfl, top⟩
  · have fails : jumpTarget s x m = .error .indirectJump m := by
      simp [jumpTarget, require, mode, bind_apply]
    cases fails.symm.trans h

theorem top_of_push (h : push v m = .ok () n) : n.top = m.top + 1 := by
  by_cases room : m.top < m.registers.size
  · cases (push_of_lt v room).symm.trans h
    rfl
  · cases (push_of_le v (Nat.not_lt.1 room)).symm.trans h

theorem slot_ok {offset : Int16} {index : Nat} (h : slot offset m = .ok index n) :
    n = m ∧ index = m.base + offset.toNatClampNeg := by
  unfold slot at h
  split at h
  · cases h
  · cases h
    exact ⟨rfl, rfl⟩

theorem write_ok {index : Nat} (h : write index v m = .ok () n) : n.top = m.top := by
  by_cases inside : index < m.registers.size
  · cases (write_of_lt v inside).symm.trans h
    rfl
  · cases (write_of_le v (Nat.not_lt.1 inside)).symm.trans h

theorem top_of_assign (h : assign x v m = .ok () n) :
    x.mode = .register ∧ n.top = max m.top (m.base + x.value.toNatClampNeg + 1) := by
  obtain ⟨_, m₁, required, rest⟩ := bind_eq_ok_iff.1 h
  obtain ⟨index, m₂, found, rest⟩ := bind_eq_ok_iff.1 rest
  obtain ⟨_, m₃, written, rest⟩ := bind_eq_ok_iff.1 rest
  have still : KeepsTo Still (require (x.mode = .register) .badDestination) := require_keeps _ _
  have mode : x.mode = .register := by
    by_contra other
    simp [require, other] at required
  obtain rfl : m₁ = m := still.ok required
  obtain ⟨rfl, rfl⟩ := slot_ok found
  rw [← write_ok written]
  cases rest
  exact ⟨mode, rfl⟩

/-- Two operands are taken off, and there is a result, which is put on top. -/
theorem top_of_binary {op : BinaryOp} (h : binary op m = .ok () n) : n.top + 1 = m.top := by
  obtain ⟨right, m₁, first, rest⟩ := bind_eq_ok_iff.1 h
  obtain ⟨left, m₂, second, rest⟩ := bind_eq_ok_iff.1 rest
  obtain ⟨some, rfl⟩ := pop_ok first
  obtain ⟨more, rfl⟩ := pop_ok second
  have pushed : n.top = m.top - 1 - 1 + 1 := by
    cases result : op.apply left right with
    | dud =>
        rw [result] at rest
        dsimp only at rest
        split at rest <;> cases rest
    | bool b =>
        rw [result] at rest
        obtain ⟨_, m₃, flagged, rest⟩ := bind_eq_ok_iff.1 rest
        cases flagged
        exact top_of_push rest
    | int number =>
        rw [result] at rest
        exact top_of_push rest
    | float f =>
        rw [result] at rest
        exact top_of_push rest
    | object id =>
        rw [result] at rest
        exact top_of_push rest
  have two : m.base < m.top - 1 := more
  omega

theorem top_of_callee {target : Nat × Nat} (h : callee s i m = .ok target n) :
    ∃ x y, i.operand? 0 = some x ∧ i.operand? 1 = some y ∧
      n.top + (x.mode.taken + y.mode.taken) = m.top := by
  obtain ⟨x, m₁, first, rest⟩ := bind_eq_ok_iff.1 h
  obtain ⟨func, m₂, counted, rest⟩ := bind_eq_ok_iff.1 rest
  obtain ⟨y, m₃, second, rest⟩ := bind_eq_ok_iff.1 rest
  obtain ⟨argc, m₄, counted', rest⟩ := bind_eq_ok_iff.1 rest
  cases rest
  obtain ⟨rfl, here⟩ := operand_ok first
  obtain ⟨rfl, here'⟩ := operand_ok second
  refine ⟨x, y, here, here', ?_⟩
  have top := top_of_count counted
  have top' := top_of_count counted'
  omega

theorem top_of_jumpWhen {taken : Bool} (h : jumpWhen s i taken m = .ok () n) :
    ∃ x y, i.operand? 0 = some x ∧ i.operand? 1 = some y ∧
      n.top + (x.mode.taken + y.mode.taken) = m.top := by
  obtain ⟨x, m₁, first, rest⟩ := bind_eq_ok_iff.1 h
  obtain ⟨v, m₂, loaded, rest⟩ := bind_eq_ok_iff.1 rest
  obtain ⟨cond, m₃, decided, rest⟩ := bind_eq_ok_iff.1 rest
  obtain ⟨y, m₄, second, rest⟩ := bind_eq_ok_iff.1 rest
  obtain ⟨target, m₅, led, rest⟩ := bind_eq_ok_iff.1 rest
  obtain ⟨_, m₆, flagged, rest⟩ := bind_eq_ok_iff.1 rest
  obtain ⟨rfl, here⟩ := operand_ok first
  obtain ⟨rfl, here'⟩ := operand_ok second
  have still : KeepsTo Still (need .undecidedCondition v.truthy?) := need_keeps _ _
  have same : m₄.top = m₂.top := by rw [still.ok decided]
  have moved : n.top = m₅.top := by
    cases flagged
    split at rest <;> cases rest <;> rfl
  refine ⟨x, y, here, here', ?_⟩
  have top := (top_of_load loaded).1
  have top' := top_of_jumpTarget led
  omega

/-- A procedure answers below the top. -/
theorem top_of_runProcedure {id argc : Nat} (confined : s.IsConfined)
    (h : (procedureOf s.procedures id argc >>= runProcedure) m = .ok () n) : n.top = m.top := by
  obtain ⟨⟨p, count⟩, m₁, found, rest⟩ := bind_eq_ok_iff.1 h
  cases known : s.procedures[id]? with
  | none => cases (procedureOf_none known argc m).symm.trans found
  | some q =>
      rw [procedureOf_some known] at found
      split at found
      · cases found
        obtain ⟨_, m₂, ran, moved⟩ := bind_eq_ok_iff.1 rest
        have same := ((confined p (Array.mem_of_getElem? known) _).ok ran).same
        cases moved
        show m₂.top = m.top
        rw [same]
      · cases found

/-! ### Instructions -/

/-- The value that is stored raises the top past its register. -/
theorem top_of_stored (h : (assign x v >>= fun _ => advance) m = .ok () n) :
    x.mode = .register ∧ n.top = max m.top (m.base + x.value.toNatClampNeg + 1) := by
  obtain ⟨_, m₁, assigned, moved⟩ := bind_eq_ok_iff.1 h
  obtain ⟨mode, top⟩ := top_of_assign assigned
  cases moved
  exact ⟨mode, top⟩

theorem stored?_of_register (op : i.op = .mov ∨ i.op = .neg) (first : i.operand? 0 = some x)
    (mode : x.mode = .register) : i.stored? = some x.value.toNatClampNeg := by
  have register : i.register? 0 = some x.value.toNatClampNeg := by
    rw [Instruction.register?, first, Option.bind_some, if_pos mode]
  rw [Instruction.stored?]
  rcases op with op | op <;> simp only [op, register]

/-- A move or a negation that succeeds. -/
theorem top_of_store (arity : i.arity = i.op.operandCount) (op : i.op = .mov ∨ i.op = .neg)
    (h : dispatch s i m = .ok () n) : ∃ slot, i.stored? = some slot ∧
      (n.top : Int) = max (m.top + i.stackDelta) (m.base + slot + 1) := by
  rcases op with op | op
  · rw [op] at arity
    rw [dispatch, op] at h
    obtain ⟨dest, m₁, first, rest⟩ := bind_eq_ok_iff.1 h
    obtain ⟨src, m₂, second, rest⟩ := bind_eq_ok_iff.1 rest
    obtain ⟨v, m₃, loaded, stores⟩ := bind_eq_ok_iff.1 rest
    obtain ⟨rfl, here⟩ := operand_ok first
    obtain ⟨rfl, here'⟩ := operand_ok second
    obtain ⟨mode, top⟩ := top_of_stored stores
    obtain ⟨lowered, base⟩ := top_of_load loaded
    have free : dest.mode.taken = 0 := by rw [mode]; rfl
    have level : (Opcode.mov).stackDelta = 0 := rfl
    refine ⟨_, stored?_of_register (.inl op) here mode, ?_⟩
    rw [Instruction.stackDelta_of_two arity here here', op, level, free, top, base]
    omega
  · rw [op] at arity
    rw [dispatch, op] at h
    obtain ⟨dest, m₁, first, rest⟩ := bind_eq_ok_iff.1 h
    obtain ⟨_, m₂, required, rest⟩ := bind_eq_ok_iff.1 rest
    obtain ⟨v, m₃, loaded, rest⟩ := bind_eq_ok_iff.1 rest
    obtain ⟨_, m₄, required', stores⟩ := bind_eq_ok_iff.1 rest
    have still (condition : Bool) (fault : Fault) : KeepsTo Still (require condition fault) :=
      require_keeps _ _
    obtain ⟨rfl, here⟩ := operand_ok first
    obtain rfl : m₂ = m₁ := (still _ _).ok required
    obtain rfl : m₄ = m₃ := (still _ _).ok required'
    obtain ⟨mode, top⟩ := top_of_stored stores
    obtain ⟨lowered, base⟩ := top_of_load loaded
    have free : dest.mode.taken = 0 := by rw [mode]; rfl
    have level : (Opcode.neg).stackDelta = 0 := rfl
    refine ⟨_, stored?_of_register (.inr op) here mode, ?_⟩
    rw [Instruction.stackDelta_of_one arity here, op, level, free, top, base]
    omega

/-- Any other instruction that succeeds, except a return. -/
theorem top_of_no_store (confined : s.IsConfined) (arity : i.arity = i.op.operandCount)
    (notMov : i.op ≠ .mov) (notNeg : i.op ≠ .neg) (notRet : i.op ≠ .ret)
    (h : dispatch s i m = .ok () n) : (n.top : Int) = m.top + i.stackDelta := by
  cases op : i.op with
  | mov => exact absurd op notMov
  | neg => exact absurd op notNeg
  | ret => exact absurd op notRet
  | nop =>
      rw [op] at arity
      rw [dispatch, op] at h
      cases h
      rw [Instruction.stackDelta_of_none arity, op]
      exact (Int.add_zero _).symm
  | halt =>
      rw [op] at arity
      rw [dispatch, op] at h
      cases h
      rw [Instruction.stackDelta_of_none arity, op]
      exact (Int.add_zero _).symm
  | binary b =>
      rw [op] at arity
      rw [dispatch, op] at h
      obtain ⟨_, m₁, combined, moved⟩ := bind_eq_ok_iff.1 h
      have top := top_of_binary combined
      have down : (Opcode.binary b).stackDelta = -1 := rfl
      cases moved
      show (m₁.top : Int) = _
      rw [Instruction.stackDelta_of_none arity, op, down]
      omega
  | push =>
      rw [op] at arity
      rw [dispatch, op] at h
      obtain ⟨src, m₁, first, rest⟩ := bind_eq_ok_iff.1 h
      obtain ⟨v, m₂, loaded, rest⟩ := bind_eq_ok_iff.1 rest
      obtain ⟨_, m₃, pushed, moved⟩ := bind_eq_ok_iff.1 rest
      obtain ⟨rfl, here⟩ := operand_ok first
      have lowered := (top_of_load loaded).1
      have top := top_of_push pushed
      have up : (Opcode.push).stackDelta = 1 := rfl
      cases moved
      show (m₃.top : Int) = _
      rw [Instruction.stackDelta_of_one arity here, op, up]
      omega
  | jump =>
      rw [op] at arity
      rw [dispatch, op] at h
      obtain ⟨x, m₁, first, rest⟩ := bind_eq_ok_iff.1 h
      obtain ⟨place, m₂, led, moved⟩ := bind_eq_ok_iff.1 rest
      obtain ⟨rfl, here⟩ := operand_ok first
      obtain ⟨free, top⟩ := top_of_jumpTarget led
      have level : (Opcode.jump).stackDelta = 0 := rfl
      cases moved
      show (m₂.top : Int) = _
      rw [Instruction.stackDelta_of_one arity here, op, level, free, top]
      omega
  | jumpIf =>
      rw [op] at arity
      rw [dispatch, op] at h
      obtain ⟨x, y, here, here', top⟩ := top_of_jumpWhen h
      have level : (Opcode.jumpIf).stackDelta = 0 := rfl
      rw [Instruction.stackDelta_of_two arity here here', op, level]
      omega
  | jumpElse =>
      rw [op] at arity
      rw [dispatch, op] at h
      obtain ⟨x, y, here, here', top⟩ := top_of_jumpWhen h
      have level : (Opcode.jumpElse).stackDelta = 0 := rfl
      rw [Instruction.stackDelta_of_two arity here here', op, level]
      omega
  | call =>
      rw [op] at arity
      rw [dispatch_call op] at h
      obtain ⟨target, m₁, loads, calls⟩ := bind_eq_ok_iff.1 h
      obtain ⟨x, y, here, here', top⟩ := top_of_callee loads
      obtain ⟨-, rfl⟩ := call_ok calls
      have level : (Opcode.call).stackDelta = 0 := rfl
      show (m₁.top : Int) = _
      rw [Instruction.stackDelta_of_two arity here here', op, level]
      omega
  | nativeCall =>
      rw [op] at arity
      rw [dispatch_nativeCall_eq s op] at h
      obtain ⟨target, m₁, loads, runs⟩ := bind_eq_ok_iff.1 h
      obtain ⟨x, y, here, here', top⟩ := top_of_callee loads
      have same := top_of_runProcedure confined runs
      have level : (Opcode.nativeCall).stackDelta = 0 := rfl
      rw [Instruction.stackDelta_of_two arity here here', op, level]
      omega

/-- Let an instruction have as many slots as its opcode reads, with any operands in them, and let it
succeed in a machine, by itself or as the next step. Unless it is a return, it moves the top by its
stack effect and then, if it stores a value in a register, raises it past that register. -/
theorem stack_effect (s : Setting) (confined : s.IsConfined) (i : Instruction) (m n : Machine)
    (arity : i.arity = i.op.operandCount) (notRet : i.op ≠ .ret)
    (succeeds : dispatch s i m = .ok () n ∨
      s.program.fetch? m.func m.place = some i ∧ m.attempt s = .done n) :
    (i.op = .mov ∨ i.op = .neg → ∃ slot, i.stored? = some slot ∧
      (n.top : Int) = max (m.top + i.stackDelta) (m.base + slot + 1)) ∧
    (i.op ≠ .mov → i.op ≠ .neg → (n.top : Int) = m.top + i.stackDelta) := by
  have effect (m' : Machine) (top : m'.top = m.top) (base : m'.base = m.base)
      (h : dispatch s i m' = .ok () n) :
      (i.op = .mov ∨ i.op = .neg → ∃ slot, i.stored? = some slot ∧
        (n.top : Int) = max (m.top + i.stackDelta) (m.base + slot + 1)) ∧
      (i.op ≠ .mov → i.op ≠ .neg → (n.top : Int) = m.top + i.stackDelta) := by
    rw [← top, ← base]
    exact ⟨fun store => top_of_store arity store h,
      fun notMov notNeg => top_of_no_store confined arity notMov notNeg notRet h⟩
  rcases succeeds with h | ⟨fetched, done⟩
  · exact effect m rfl rfl h
  · have attempted := m.attempted s
    rw [done] at attempted
    obtain _ | _ | _ | @⟨j, _, -, -, next, ok⟩ := attempted
    obtain rfl : j = i := Option.some.inj (next.symm.trans fetched)
    exact effect m.started rfl rfl ok

/-- A program that takes a value off the frame and stores it in a register past the top. -/
def farStore : Setting where
  limits := ⟨8, 4, 2, none⟩
  program := {
    chunks := #[#[.make .push [.immediate 7], .make .mov [.register 3, .stack]]]
    constants := #[]
    entry := some 0 }
  procedures := Procedure.standard

/-- The top falls by one and then rises past the register. -/
theorem stack_effect_of_far_store :
    let s := farStore
    let i : Instruction := .make .mov [.register 3, .stack]
    let m := (initial s.limits []).afterMoves s [.begin, .step]
    let n := (m.step s).2
    i.stackDelta = -1 ∧ m.top = 1 ∧ (∃ slot, i.stored? = some slot ∧
      (n.top : Int) = max (m.top + i.stackDelta) (m.base + slot + 1)) ∧ n.top = 4 := by
  intro s i m n
  have done : m.attempt s = .done n := by
    have succeeds : (m.attempt s matches .done _) = true := by decide +kernel
    change m.attempt s = .done (m.attempt s).settle.2
    generalize m.attempt s = o at succeeds
    cases o <;> first | rfl | cases succeeds
  have fetched : s.program.fetch? m.func m.place = some i := by decide +kernel
  have holds := stack_effect s standard_isConfined i m n (by decide) (by decide)
    (.inr ⟨fetched, done⟩)
  exact ⟨by decide, by decide +kernel, holds.1 (.inl rfl), by decide +kernel⟩

end Machine

end RegisterCode
