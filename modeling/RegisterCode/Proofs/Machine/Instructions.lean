import RegisterCode.Flow.Step
import RegisterCode.Proofs.Machine.Tracked

/-!
The instructions that emission makes, one by one: what each of them does to a
machine, and what it demands of the limits.
-/

namespace RegisterCode

/-- The result of an operator, or the fault that it stops with. -/
def BinaryOp.outcome (op : BinaryOp) (x y : Value) : Except Fault Value :=
  match op.apply x y with
  | .dud => if op.divides && x.sameKind y && y.isZero then .error .zeroDivisor
    else .error .badOperands
  | v => .ok v

theorem BinaryOp.isOwn_of_outcome {op : BinaryOp} {x y : Value} {fault : Fault}
    (h : op.outcome x y = .error fault) : fault.IsOwn := by
  unfold outcome at h
  split at h
  · split at h <;> cases h <;> decide
  · cases h

namespace Instruction

theorem mode?_unary (op : Opcode) (x : Operand) : (unary op x).mode? 0 = some x.mode := by
  obtain ⟨mode, value⟩ := x
  have word : (unary op ⟨mode, value⟩).metadata =
      0 ||| mode.code <<< modeShift 0 ||| UInt16.ofNat 1 := rfl
  unfold mode? arity
  rw [word]
  dsimp only
  cases mode <;> decide

theorem mode?_binary (op : Opcode) (x y : Operand) :
    (binary op x y).mode? 0 = some x.mode ∧ (binary op x y).mode? 1 = some y.mode := by
  obtain ⟨mode, value⟩ := x
  obtain ⟨mode', value'⟩ := y
  have word : (binary op ⟨mode, value⟩ ⟨mode', value'⟩).metadata =
      0 ||| mode.code <<< modeShift 0 ||| mode'.code <<< modeShift 1 ||| UInt16.ofNat 2 := rfl
  unfold mode? arity
  rw [word]
  dsimp only
  cases mode <;> cases mode' <;> decide

theorem operand?_unary (op : Opcode) (x : Operand) : (unary op x).operand? 0 = some x := by
  rw [operand?, mode?_unary]
  rfl

theorem operand?_binary_zero (op : Opcode) (x y : Operand) :
    (binary op x y).operand? 0 = some x := by
  rw [operand?, (mode?_binary op x y).1]
  rfl

theorem operand?_binary_one (op : Opcode) (x y : Operand) :
    (binary op x y).operand? 1 = some y := by
  rw [operand?, (mode?_binary op x y).2]
  rfl

end Instruction

namespace Machine

variable {s : Setting} {m : Machine}

/-- The machine after a value was written to a register of the frame. -/
def assigned (m : Machine) (offset : Nat) (v : Value) : Machine :=
  { m with
    registers := m.registers.setIfInBounds (m.base + offset) v
    top := max m.top (m.base + offset + 1) }

/-- The machine after a value was put on top of the frame. -/
def pushed (m : Machine) (v : Value) : Machine :=
  { m with registers := m.registers.setIfInBounds m.top v, top := m.top + 1 }

/-- The machine at the next instruction. -/
def advanced (m : Machine) : Machine := { m with place := m.place + 1 }

theorem operand_unary (op : Opcode) (x : Operand) (m : Machine) :
    operand (.unary op x) 0 m = .ok x m := by
  rw [operand, Instruction.operand?_unary]
  rfl

theorem operand_binary_zero (op : Opcode) (x y : Operand) (m : Machine) :
    operand (.binary op x y) 0 m = .ok x m := by
  rw [operand, Instruction.operand?_binary_zero]
  rfl

theorem operand_binary_one (op : Opcode) (x y : Operand) (m : Machine) :
    operand (.binary op x y) 1 m = .ok y m := by
  rw [operand, Instruction.operand?_binary_one]
  rfl

/-! ### Values of operands -/

theorem toInt_ofNat_of_small {n : Nat} (h : n < numberRange) : (Int16.ofNat n).toInt = n := by
  refine Int16.toInt_ofNat_of_lt ?_
  simp only [numberRange] at h
  omega

theorem toNatClampNeg_ofNat_of_small {n : Nat} (h : n < numberRange) :
    (Int16.ofNat n).toNatClampNeg = n := by
  rw [Int16.toNatClampNeg, toInt_ofNat_of_small h]
  rfl

theorem zero_le_ofNat_of_small {n : Nat} (h : n < numberRange) : 0 ≤ Int16.ofNat n := by
  rw [Int16.le_iff_toInt_le, toInt_ofNat_of_small h]
  exact Int.natCast_nonneg n

theorem load_immediate (n : Int16) (m : Machine) :
    load s (.immediate n) m = .ok (.int n.toInt32) m := rfl

theorem load_constant {n : Int16} {v : Value} (named : 0 ≤ n)
    (h : s.program.constants[n.toNatClampNeg]? = some v) (m : Machine) :
    load s (.constant n) m = .ok v m := by
  have natural : ¬ (Operand.constant n).value < 0 := Int16.not_lt.2 named
  show (if (Operand.constant n).value < 0 then throw .unknownConstant
    else need .unknownConstant s.program.constants[n.toNatClampNeg]? : Action Value) m = _
  rw [if_neg natural, h]
  rfl

theorem load_register {slot : Nat} {v : Value} (small : slot < numberRange)
    (h : m.registers[m.base + slot]? = some v) :
    load s (.register (Int16.ofNat slot)) m = .ok v m := by
  have value : (Int16.ofNat slot).toNatClampNeg = slot := toNatClampNeg_ofNat_of_small small
  have natural : ¬ Int16.ofNat slot < 0 := Int16.not_lt.2 (zero_le_ofNat_of_small small)
  simp only [load, Operand.register, Machine.slot, natural, if_false, value, bind_apply,
    get_apply, pure_apply, read, h]
  rfl

theorem load_stack {v : Value} (room : m.base < m.top)
    (h : m.registers[m.top - 1]? = some v) :
    load s .stack m = .ok v { m with top := m.top - 1 } := by
  show pop m = _
  rw [pop_of_lt room, h]
  rfl

theorem count_immediate {n : Int16} (named : 0 ≤ n) (m : Machine) :
    count s (.immediate n) m = .ok n.toNatClampNeg m := by
  have natural : ¬ n.toInt32 < 0 := by
    rw [Int32.not_lt, Int32.le_iff_toInt_le, Int16.toInt_toInt32]
    exact Int16.le_iff_toInt_le.1 named
  simp only [count, bind_apply, load_immediate, natural, if_false, pure_apply,
    Int16.toNatClampNeg_toInt32]

theorem jumpTarget_immediate {n : Int16} (named : 0 ≤ n) (m : Machine) :
    jumpTarget s (.immediate n) m = .ok n.toNatClampNeg m := by
  have mode : (Operand.immediate n).mode = .immediate := rfl
  simp only [jumpTarget, require, mode, decide_true, if_true, bind_apply, pure_apply,
    count_immediate named]

/-! ### Effects -/

theorem set_eq_setIfInBounds {α : Type} {xs : Array α} {i : Nat} (v : α) (h : i < xs.size) :
    xs.set i v = xs.setIfInBounds i v := by
  rw [Array.setIfInBounds, dif_pos h]

theorem assign_slot {slot : Nat} (v : Value) (small : slot < numberRange)
    (h : m.base + slot < m.registers.size) :
    assign (.register (Int16.ofNat slot)) v m = .ok () (m.assigned slot v) := by
  have value : (Int16.ofNat slot).toNatClampNeg = slot := toNatClampNeg_ofNat_of_small small
  have natural : ¬ Int16.ofNat slot < 0 := Int16.not_lt.2 (zero_le_ofNat_of_small small)
  simp [assign, require, Machine.slot, Operand.register, natural, bind_apply, value,
    write_of_lt v h, set_eq_setIfInBounds v h, assigned]

theorem assign_slot_of_le {slot : Nat} (v : Value) (small : slot < numberRange)
    (h : m.registers.size ≤ m.base + slot) :
    assign (.register (Int16.ofNat slot)) v m = .error .registerLimit m := by
  have value : (Int16.ofNat slot).toNatClampNeg = slot := toNatClampNeg_ofNat_of_small small
  have natural : ¬ Int16.ofNat slot < 0 := Int16.not_lt.2 (zero_le_ofNat_of_small small)
  simp [assign, require, Machine.slot, Operand.register, natural, bind_apply, value,
    write_of_le v h]

theorem push_of_room (v : Value) (h : m.top < m.registers.size) :
    push v m = .ok () (m.pushed v) := by
  rw [push_of_lt v h, set_eq_setIfInBounds]
  rfl

theorem advance_apply (m : Machine) : advance m = .ok () m.advanced := rfl

theorem goTo_apply (place : Nat) (m : Machine) : goTo place m = .ok () { m with place := place } :=
  rfl

theorem dispatch_nop (m : Machine) : dispatch s (.nonary .nop) m = .ok () m.advanced := rfl

section

variable {dest src : Operand} {v : Value} {m' m'' : Machine} {fault : Fault}

theorem dispatch_mov (h : load s src m = .ok v m') :
    dispatch s (.binary .mov dest src) m = (assign dest v >>= fun _ => advance) m' := by
  have op : (Instruction.binary .mov dest src).op = .mov := rfl
  simp only [dispatch, op, bind_apply, operand_binary_zero, operand_binary_one, h]

theorem dispatch_push (h : load s src m = .ok v m') :
    dispatch s (.unary .push src) m = (push v >>= fun _ => advance) m' := by
  have op : (Instruction.unary .push src).op = .push := rfl
  simp only [dispatch, op, bind_apply, operand_unary, h]

theorem dispatch_neg (mode : dest.mode = .register) (h : load s dest m = .ok v m') :
    dispatch s (.unary .neg dest) m =
      if v.neg.isDud then .error .badOperands m'
      else (assign dest v.neg >>= fun _ => advance) m' := by
  have op : (Instruction.unary .neg dest).op = .neg := rfl
  simp only [dispatch, op, bind_apply, operand_unary, mode, require, decide_true, if_true, h,
    pure_apply]
  cases v.neg.isDud <;> rfl

theorem dispatch_jump {place : Int16} (named : 0 ≤ place) (m : Machine) :
    dispatch s (.unary .jump (.immediate place)) m =
      .ok () { m with place := place.toNatClampNeg } := by
  have op : (Instruction.unary .jump (.immediate place)).op = .jump := rfl
  simp only [dispatch, op, bind_apply, operand_unary, jumpTarget_immediate named, goTo_apply]

theorem dispatch_jumpElse {place : Int16} (named : 0 ≤ place) (h : load s src m = .ok v m') :
    dispatch s (.binary .jumpElse src (.immediate place)) m =
      match v.truthy? with
      | none => .error .undecidedCondition m'
      | some true => .ok () { m' with flag := true, place := m'.place + 1 }
      | some false => .ok () { m' with flag := false, place := place.toNatClampNeg } := by
  have op : (Instruction.binary .jumpElse src (.immediate place)).op = .jumpElse := rfl
  simp only [dispatch, op, jumpWhen, bind_apply, operand_binary_zero, operand_binary_one, h]
  cases v.truthy? with
  | none => rfl
  | some cond =>
      simp only [need, pure_apply, jumpTarget_immediate named, modify_apply]
      cases cond <;> rfl

theorem dispatch_ret_of_load (h : load s src m = .ok v m') :
    dispatch s (.unary .ret src) m = ret v m' := by
  have op : (Instruction.unary .ret src).op = .ret := rfl
  simp only [dispatch, op, bind_apply, operand_unary, h]

theorem callee_immediate {func argc : Int16} (named : 0 ≤ func) (some : 0 ≤ argc) (m : Machine) :
    callee s (.binary .call (.immediate func) (.immediate argc)) m =
      .ok (func.toNatClampNeg, argc.toNatClampNeg) m := by
  simp only [callee, bind_apply, operand_binary_zero, operand_binary_one, count_immediate named,
    count_immediate some, pure_apply]

theorem dispatch_call_immediate {func argc : Int16} (named : 0 ≤ func) (some : 0 ≤ argc)
    (m : Machine) :
    dispatch s (.binary .call (.immediate func) (.immediate argc)) m =
      call s func.toNatClampNeg argc.toNatClampNeg m := by
  rw [dispatch_call rfl, bind_of_ok (callee_immediate named some m)]

theorem requested_immediate {id argc : Int16} {p : Procedure} (named : 0 ≤ id) (some : 0 ≤ argc)
    (known : s.procedures[id.toNatClampNeg]? = .some p) (m : Machine) :
    requested s (.binary .nativeCall (.immediate id) (.immediate argc)) m =
      .ok (p, UInt16.ofNat argc.toNatClampNeg) m := by
  have small : argc.toNatClampNeg < UInt16.size :=
    Nat.lt_trans argc.toNatClampNeg_lt (by decide)
  simp only [requested, bind_apply, operand_binary_zero, operand_binary_one,
    count_immediate named, count_immediate some, known, need, pure_apply, require, small,
    decide_true, if_true]

theorem dispatch_nativeCall {id argc : Int16} {p : Procedure} (named : 0 ≤ id) (some : 0 ≤ argc)
    (known : s.procedures[id.toNatClampNeg]? = .some p) (m : Machine) :
    dispatch s (.binary .nativeCall (.immediate id) (.immediate argc)) m =
      (p.run (UInt16.ofNat argc.toNatClampNeg) >>= fun _ => advance) m := by
  have op : (Instruction.binary .nativeCall (.immediate id) (.immediate argc)).op =
      .nativeCall := rfl
  simp only [dispatch, op, bind_apply, requested_immediate named some known]

end

/-- The machine after an operator took its operands and put its result on top. -/
def combined (m : Machine) (v : Value) : Machine :=
  { m with
    registers := m.registers.setIfInBounds (m.top - 2) v
    top := m.top - 1
    flag := match v with
      | .bool b => b
      | _ => m.flag }

theorem pop_of_some {v : Value} (room : m.base < m.top) (h : m.registers[m.top - 1]? = some v) :
    pop m = .ok v { m with top := m.top - 1 } := by
  rw [pop_of_lt room, h]
  rfl

theorem binary_apply {op : BinaryOp} {x y : Value} (room : m.base + 2 ≤ m.top)
    (hx : m.registers[m.top - 2]? = some x) (hy : m.registers[m.top - 1]? = some y) :
    binary op m = match op.outcome x y with
      | .ok v => .ok () (m.combined v)
      | .error fault => .error fault { m with top := m.top - 2 } := by
  have first : pop m = .ok y { m with top := m.top - 1 } := pop_of_some (by omega) hy
  have second : pop { m with top := m.top - 1 } = .ok x { m with top := m.top - 2 } := by
    refine pop_of_some ?_ hx
    show m.base < m.top - 1
    omega
  have inside : m.top - 2 < m.registers.size := (Array.getElem?_eq_some_iff.1 hx).1
  have back : m.top - 2 + 1 = m.top - 1 := by omega
  have pushes : ∀ v flag, push v { m with top := m.top - 2, flag := flag } =
      .ok () { m with
        registers := m.registers.setIfInBounds (m.top - 2) v
        top := m.top - 1
        flag := flag } := by
    intro v flag
    rw [push_of_room v inside, pushed]
    simp only [back]
  have pushes' : ∀ v, push v { m with top := m.top - 2 } =
      .ok () { m with
        registers := m.registers.setIfInBounds (m.top - 2) v
        top := m.top - 1 } := fun v => pushes v m.flag
  rw [binary, bind_of_ok first, bind_of_ok second, BinaryOp.outcome]
  cases op.apply x y with
  | dud =>
      dsimp only
      cases op.divides && x.sameKind y && y.isZero <;> rfl
  | bool b =>
      simp only [bind_apply, modify_apply, pushes]
      rfl
  | int n => exact pushes' _
  | float x => exact pushes' _
  | object id => exact pushes' _

theorem dispatch_binary {op : BinaryOp} {x y : Value} (room : m.base + 2 ≤ m.top)
    (hx : m.registers[m.top - 2]? = some x) (hy : m.registers[m.top - 1]? = some y) :
    dispatch s (.nonary (.binary op)) m = match op.outcome x y with
      | .ok v => .ok () (m.combined v).advanced
      | .error fault => .error fault { m with top := m.top - 2 } := by
  have opcode : (Instruction.nonary (.binary op)).op = .binary op := rfl
  simp only [dispatch, opcode, bind_apply, binary_apply room hx hy]
  cases op.outcome x y <;> rfl

end Machine

end RegisterCode
