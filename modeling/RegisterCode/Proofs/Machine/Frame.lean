import RegisterCode.Machine.Run
import RegisterCode.Proofs.Effect

/-!
What the parts of an instruction can do to the machine. Reading operands only
lowers the top (`Lowered`). Everything except a call and a return stays in the
frame at hand (`InFrame`): the frames, the operand stack and all registers below
the base are as before, and the top does not leave the frame or the file.
-/

namespace RegisterCode

namespace Machine

/-! ### Parts that change nothing -/

section Neutral

variable {R : Machine → Machine → Prop} [Composes R] {α : Type}

theorem need_keeps (fault : Fault) (x : Option α) :
    KeepsTo R (need fault x) := by
  cases x with
  | none => exact .throw fault
  | some a => exact .pure a

theorem require_keeps (condition : Bool) (fault : Fault) :
    KeepsTo R (require condition fault) := by
  cases condition with
  | false => exact .throw fault
  | true => exact .pure ()

theorem read_keeps (index : Nat) : KeepsTo R (read index) :=
  .get_bind fun m => need_keeps _ _ m

theorem slot_keeps (offset : Int16) : KeepsTo R (slot offset) := by
  unfold slot
  split
  · exact .throw _
  · exact .get_bind fun m => KeepsTo.pure _ m

theorem operand_keeps (i : Instruction) (slot : Nat) :
    KeepsTo R (operand i slot) :=
  need_keeps _ _

end Neutral

/-! ### Reading operands -/

/-- Nothing changed but the top, which is lower or the same and still in the
frame if it was there. -/
structure Lowered (m n : Machine) : Prop where
  same : n = { m with top := n.top }
  le : n.top ≤ m.top
  base_le : m.base ≤ m.top → m.base ≤ n.top

namespace Lowered

theorem refl (m : Machine) : Lowered m m :=
  ⟨rfl, Nat.le_refl _, id⟩

theorem trans {m n o : Machine} (h : Lowered m n) (h' : Lowered n o) : Lowered m o := by
  have base : n.base = m.base := by rw [h.same]
  refine ⟨?_, Nat.le_trans h'.le h.le, fun hm => ?_⟩
  · rw [h'.same, h.same]
  · exact base ▸ h'.base_le (base ▸ h.base_le hm)

instance : Composes Lowered := ⟨refl, trans⟩

end Lowered

theorem pop_of_le {m : Machine} (h : m.top ≤ m.base) : pop m = .error .emptyFrame m :=
  if_neg (Nat.not_lt.2 h)

theorem pop_of_lt {m : Machine} (h : m.base < m.top) :
    pop m = (need .registerLimit m.registers[m.top - 1]?) { m with top := m.top - 1 } :=
  if_pos h

theorem pop_lowered : KeepsTo Lowered pop := by
  intro m
  by_cases h : m.base < m.top
  · have lowered : Lowered m { m with top := m.top - 1 } :=
      ⟨rfl, Nat.sub_le _ _, fun _ => Nat.le_sub_one_of_lt h⟩
    rw [leaves, pop_of_lt h]
    cases m.registers[m.top - 1]? <;> exact lowered
  · rw [leaves_of_error (pop_of_le (Nat.not_lt.1 h))]
    exact .refl m

theorem load_lowered (s : Setting) (x : Operand) : KeepsTo Lowered (load s x) := by
  unfold load
  cases x.mode with
  | immediate => exact .pure _
  | constant =>
      dsimp only
      split
      · exact .throw _
      · exact need_keeps _ _
  | register => exact .bind (slot_keeps _) fun index => read_keeps index
  | stack => exact pop_lowered
  | object =>
      dsimp only
      split
      · exact .throw _
      · exact .pure _

theorem count_lowered (s : Setting) (x : Operand) : KeepsTo Lowered (count s x) := by
  refine .bind (load_lowered s x) fun v => ?_
  split
  · split
    · exact .throw _
    · exact .pure _
  · exact .throw _

theorem jumpTarget_lowered (s : Setting) (x : Operand) : KeepsTo Lowered (jumpTarget s x) :=
  .bind (require_keeps _ _) fun _ => count_lowered s x

/-- The function and the number of arguments that a call names. -/
def callee (s : Setting) (i : Instruction) : Action (Nat × Nat) := do
  let func ← count s (← operand i 0)
  let argc ← count s (← operand i 1)
  return (func, argc)

theorem callee_lowered (s : Setting) (i : Instruction) : KeepsTo Lowered (callee s i) :=
  .bind (operand_keeps i 0) fun x =>
    .bind (count_lowered s x) fun _ =>
      .bind (operand_keeps i 1) fun y =>
        .bind (count_lowered s y) fun _ => .pure _

/-- The value that a return hands to the caller. -/
def result (s : Setting) (i : Instruction) : Action Value := do
  load s (← operand i 0)

theorem result_lowered (s : Setting) (i : Instruction) : KeepsTo Lowered (result s i) :=
  .bind (operand_keeps i 0) fun x => load_lowered s x

/-! ### Work inside the frame -/

/-- The top is inside the frame and inside the register file. -/
structure Seated (m : Machine) : Prop where
  base_le : m.base ≤ m.top
  top_le : m.top ≤ m.registers.size

/-- What is not the frame at hand is the same before and after. -/
structure SameOutside (m n : Machine) : Prop where
  frames : n.frames = m.frames
  operands : n.operands = m.operands
  func : n.func = m.func
  base : n.base = m.base
  status : n.status = m.status
  size : n.registers.size = m.registers.size
  below : ∀ i < m.base, n.registers[i]? = m.registers[i]?

/-- Work inside a frame whose top is in place leaves it in place. -/
def InFrame (m n : Machine) : Prop :=
  m.Seated → n.Seated ∧ SameOutside m n

namespace SameOutside

theorem refl (m : Machine) : SameOutside m m :=
  ⟨rfl, rfl, rfl, rfl, rfl, rfl, fun _ _ => rfl⟩

theorem trans {m n o : Machine} (h : SameOutside m n) (h' : SameOutside n o) :
    SameOutside m o where
  frames := h'.frames.trans h.frames
  operands := h'.operands.trans h.operands
  func := h'.func.trans h.func
  base := h'.base.trans h.base
  status := h'.status.trans h.status
  size := h'.size.trans h.size
  below i hi := (h'.below i (h.base ▸ hi)).trans (h.below i hi)

end SameOutside

namespace InFrame

theorem refl (m : Machine) : InFrame m m :=
  fun seated => ⟨seated, .refl m⟩

theorem trans {m n o : Machine} (h : InFrame m n) (h' : InFrame n o) : InFrame m o := by
  intro seated
  obtain ⟨seated', same⟩ := h seated
  obtain ⟨seated'', same'⟩ := h' seated'
  exact ⟨seated'', same.trans same'⟩

instance : Composes InFrame := ⟨refl, trans⟩

end InFrame

theorem Lowered.inFrame {m n : Machine} (h : Lowered m n) : InFrame m n := by
  intro seated
  have base_le := h.base_le seated.base_le
  have top_le := Nat.le_trans h.le seated.top_le
  rw [h.same]
  exact ⟨⟨base_le, top_le⟩, ⟨rfl, rfl, rfl, rfl, rfl, rfl, fun _ _ => rfl⟩⟩

theorem inFrame_of_lowered {α : Type} {a : Action α} (h : KeepsTo Lowered a) :
    KeepsTo InFrame a :=
  fun m => (h m).inFrame

/-- A change of the parts of the machine that belong to no frame. -/
theorem modify_inFrame {f : Machine → Machine}
    (h : ∀ m, (f m).frames = m.frames ∧ (f m).operands = m.operands ∧ (f m).func = m.func ∧
      (f m).base = m.base ∧ (f m).status = m.status ∧ (f m).registers = m.registers ∧
      (f m).top = m.top) : KeepsTo InFrame (modify f : Action PUnit) := by
  refine .modify fun m seated => ?_
  obtain ⟨frames, operands, func, base, status, registers, top⟩ := h m
  refine ⟨⟨?_, ?_⟩, ⟨frames, operands, func, base, status, ?_, fun i _ => ?_⟩⟩
  · rw [base, top]
    exact seated.base_le
  · rw [top, registers]
    exact seated.top_le
  · rw [registers]
  · rw [registers]

theorem write_of_lt {m : Machine} {index : Nat} (v : Value) (h : index < m.registers.size) :
    write index v m = .ok () { m with registers := m.registers.set index v } :=
  dif_pos h

theorem write_of_le {m : Machine} {index : Nat} (v : Value) (h : m.registers.size ≤ index) :
    write index v m = .error .registerLimit m :=
  dif_neg (Nat.not_lt.2 h)

theorem read_of_lt {m : Machine} {index : Nat} (h : index < m.registers.size) :
    read index m = .ok m.registers[index] m := by
  rw [read, bind_of_ok (get_apply m), Array.getElem?_eq_getElem h]
  rfl

/-- Writing at or above the base and raising the top past it, or not at all. -/
theorem set_inFrame {m : Machine} {index top : Nat} (v : Value) (h : index < m.registers.size)
    (base_le : m.base ≤ index) (htop : top = m.top ∨ top = index + 1) :
    InFrame m { m with registers := m.registers.set index v, top := top } := by
  intro seated
  have bounds := seated.base_le
  have limit := seated.top_le
  refine ⟨⟨?_, ?_⟩, ⟨rfl, rfl, rfl, rfl, rfl, ?_, fun i hi => ?_⟩⟩
  · show m.base ≤ top
    omega
  · show top ≤ (m.registers.set index v).size
    rw [Array.size_set]
    omega
  · exact Array.size_set h
  · show (m.registers.set index v)[i]? = _
    rw [Array.getElem?_set_ne]
    omega

theorem push_of_lt {m : Machine} (v : Value) (h : m.top < m.registers.size) :
    push v m = .ok () { m with registers := m.registers.set m.top v, top := m.top + 1 } := by
  rw [push, bind_of_ok (get_apply m), bind_of_ok (write_of_lt v h)]
  rfl

theorem push_of_le {m : Machine} (v : Value) (h : m.registers.size ≤ m.top) :
    push v m = .error .registerLimit m := by
  rw [push, bind_of_ok (get_apply m), bind_of_error (write_of_le v h)]

theorem push_inFrame (v : Value) : KeepsTo InFrame (push v) := by
  intro m seated
  by_cases h : m.top < m.registers.size
  · rw [leaves_of_ok (push_of_lt v h)]
    exact set_inFrame v h seated.base_le (.inr rfl) seated
  · rw [leaves_of_error (push_of_le v (Nat.not_lt.1 h))]
    exact InFrame.refl m seated

theorem assign_of_register {m : Machine} {x : Operand} (v : Value) (mode : x.mode = .register)
    (sign : ¬ x.value < 0) (h : m.base + x.value.toNatClampNeg < m.registers.size) :
    assign x v m = .ok () { m with
      registers := m.registers.set (m.base + x.value.toNatClampNeg) v
      top := max m.top (m.base + x.value.toNatClampNeg + 1) } := by
  simp [assign, require, slot, mode, sign, bind_apply, write_of_lt v h]

theorem assign_inFrame (x : Operand) (v : Value) : KeepsTo InFrame (assign x v) := by
  intro m seated
  by_cases mode : x.mode = .register
  · by_cases sign : x.value < 0
    · have fails : assign x v m = .error .negativeRegister m := by
        simp [assign, require, slot, mode, sign, bind_apply]
      rw [leaves_of_error fails]
      exact InFrame.refl m seated
    · by_cases h : m.base + x.value.toNatClampNeg < m.registers.size
      · rw [leaves_of_ok (assign_of_register v mode sign h)]
        refine set_inFrame v h (Nat.le_add_right _ _) ?_ seated
        omega
      · have fails : assign x v m = .error .registerLimit m := by
          simp [assign, require, slot, mode, sign, bind_apply, write_of_le v (Nat.not_lt.1 h)]
        rw [leaves_of_error fails]
        exact InFrame.refl m seated
  · have fails : assign x v m = .error .badDestination m := by
      simp [assign, require, mode, bind_apply]
    rw [leaves_of_error fails]
    exact InFrame.refl m seated

theorem binary_inFrame (op : BinaryOp) : KeepsTo InFrame (binary op) := by
  refine .bind (inFrame_of_lowered pop_lowered) fun right => ?_
  refine .bind (inFrame_of_lowered pop_lowered) fun left => ?_
  dsimp only
  split
  · split
    · exact .throw _
    · exact .throw _
  · exact .bind (modify_inFrame fun m => ⟨rfl, rfl, rfl, rfl, rfl, rfl, rfl⟩)
      fun _ => push_inFrame _
  · exact push_inFrame _

theorem goTo_inFrame (place : Nat) : KeepsTo InFrame (goTo place) :=
  modify_inFrame fun _ => ⟨rfl, rfl, rfl, rfl, rfl, rfl, rfl⟩

theorem advance_inFrame : KeepsTo InFrame advance :=
  modify_inFrame fun _ => ⟨rfl, rfl, rfl, rfl, rfl, rfl, rfl⟩

theorem jumpWhen_inFrame (s : Setting) (i : Instruction) (taken : Bool) :
    KeepsTo InFrame (jumpWhen s i taken) := by
  refine .bind (operand_keeps i 0) fun x => ?_
  refine .bind (inFrame_of_lowered (load_lowered s x)) fun v => ?_
  refine .bind (need_keeps _ _) fun cond => ?_
  refine .bind (operand_keeps i 1) fun y => ?_
  refine .bind (inFrame_of_lowered (jumpTarget_lowered s y)) fun target => ?_
  refine .bind (modify_inFrame fun _ => ⟨rfl, rfl, rfl, rfl, rfl, rfl, rfl⟩) fun _ => ?_
  split
  · exact goTo_inFrame target
  · exact advance_inFrame

/-! ### Calls of procedures -/

/-- What a call of a procedure with `count` arguments may change: the store,
the input, the output, and the register of the first argument if the frame
holds that many. -/
structure Confined (count : UInt16) (m n : Machine) : Prop where
  same : n = { m with
    registers := n.registers, store := n.store, input := n.input, output := n.output }
  size : n.registers.size = m.registers.size
  other : ∀ i, ¬ (m.base + count.toNat ≤ m.top ∧ i + count.toNat = m.top) →
    n.registers[i]? = m.registers[i]?

namespace Confined

variable {count : UInt16}

theorem refl (m : Machine) : Confined count m m :=
  ⟨rfl, rfl, fun _ _ => rfl⟩

theorem trans {m n o : Machine} (h : Confined count m n) (h' : Confined count n o) :
    Confined count m o := by
  have base : n.base = m.base := by rw [h.same]
  have top : n.top = m.top := by rw [h.same]
  refine ⟨?_, h'.size.trans h.size, fun i hi => ?_⟩
  · rw [h'.same, h.same]
  · exact (h'.other i (by rwa [base, top])).trans (h.other i hi)

instance : Composes (Confined count) := ⟨refl, trans⟩

theorem inFrame {m n : Machine} (h : Confined count m n) : InFrame m n := by
  intro seated
  have base : n.base = m.base := by rw [h.same]
  have top : n.top = m.top := by rw [h.same]
  refine ⟨⟨?_, ?_⟩, ⟨?_, ?_, ?_, base, ?_, h.size, fun i hi => h.other i ?_⟩⟩
  · rw [base, top]
    exact seated.base_le
  · rw [top, h.size]
    exact seated.top_le
  · rw [h.same]
  · rw [h.same]
  · rw [h.same]
  · rw [h.same]
  · omega

end Confined

theorem requested_lowered (s : Setting) (i : Instruction) : KeepsTo Lowered (requested s i) :=
  .bind (operand_keeps i 0) fun x =>
    .bind (count_lowered s x) fun _ =>
      .bind (operand_keeps i 1) fun y =>
        .bind (count_lowered s y) fun _ =>
          .bind (need_keeps _ _) fun _ =>
            .bind (require_keeps _ _) fun _ => .pure _

end Machine

/-- A procedure that works through its arguments, the store, the input and the
output only. -/
def Procedure.IsConfined (p : Procedure) : Prop :=
  ∀ count, KeepsTo (Machine.Confined count) (p.run count)

/-- A setting all of whose procedures are confined. -/
def Setting.IsConfined (s : Setting) : Prop :=
  ∀ p ∈ s.procedures, p.IsConfined

namespace Machine

/-- The procedure asked for is one of the table. -/
theorem requested_mem {s : Setting} {i : Instruction} {m n : Machine} {p : Procedure}
    {argc : UInt16} (h : requested s i m = .ok (p, argc) n) : p ∈ s.procedures := by
  obtain ⟨_, _, -, h⟩ := bind_eq_ok_iff.1 h
  obtain ⟨id, _, -, h⟩ := bind_eq_ok_iff.1 h
  obtain ⟨_, _, -, h⟩ := bind_eq_ok_iff.1 h
  obtain ⟨_, _, -, h⟩ := bind_eq_ok_iff.1 h
  obtain ⟨q, _, hq, h⟩ := bind_eq_ok_iff.1 h
  obtain ⟨_, _, -, h⟩ := bind_eq_ok_iff.1 h
  obtain rfl : q = p := by
    simp only [pure_apply, EStateM.Result.ok.injEq, Prod.mk.injEq] at h
    exact h.1.1
  cases hid : s.procedures[id]? with
  | none => simp [need, hid] at hq
  | some r =>
      simp only [need, hid, pure_apply, EStateM.Result.ok.injEq] at hq
      exact hq.1 ▸ Array.mem_of_getElem? hid

/-- Every instruction but a call and a return works inside the frame. -/
theorem dispatch_inFrame {s : Setting} (confined : s.IsConfined) {i : Instruction}
    (notCall : i.op ≠ .call) (notRet : i.op ≠ .ret) : KeepsTo InFrame (dispatch s i) := by
  unfold dispatch
  cases op : i.op with
  | nop => exact advance_inFrame
  | mov =>
      refine .bind (operand_keeps i 0) fun dest => ?_
      refine .bind (operand_keeps i 1) fun x => ?_
      refine .bind (inFrame_of_lowered (load_lowered s x)) fun v => ?_
      exact .bind (assign_inFrame dest v) fun _ => advance_inFrame
  | push =>
      refine .bind (operand_keeps i 0) fun x => ?_
      refine .bind (inFrame_of_lowered (load_lowered s x)) fun v => ?_
      exact .bind (push_inFrame v) fun _ => advance_inFrame
  | neg =>
      refine .bind (operand_keeps i 0) fun dest => ?_
      refine .bind (require_keeps _ _) fun _ => ?_
      refine .bind (inFrame_of_lowered (load_lowered s dest)) fun v => ?_
      refine .bind (require_keeps _ _) fun _ => ?_
      exact .bind (assign_inFrame dest _) fun _ => advance_inFrame
  | binary b => exact .bind (binary_inFrame b) fun _ => advance_inFrame
  | jump =>
      refine .bind (operand_keeps i 0) fun x => ?_
      exact .bind (inFrame_of_lowered (jumpTarget_lowered s x)) fun place => goTo_inFrame place
  | jumpIf => exact jumpWhen_inFrame s i true
  | jumpElse => exact jumpWhen_inFrame s i false
  | call => exact absurd op notCall
  | nativeCall =>
      intro m
      cases h : requested s i m with
      | ok request n =>
          obtain ⟨p, argc⟩ := request
          have first : InFrame m n := ((requested_lowered s i).ok h).inFrame
          have rest : KeepsTo InFrame (p.run argc >>= fun _ => advance) :=
            .bind (fun n => (confined p (requested_mem h) argc n).inFrame)
              fun _ => advance_inFrame
          dsimp only
          rw [leaves, bind_of_ok h]
          exact first.trans (rest n)
      | error fault n =>
          dsimp only
          rw [leaves, bind_of_error h]
          exact ((requested_lowered s i).error h).inFrame
  | ret => exact absurd op notRet
  | halt => exact modify_inFrame fun _ => ⟨rfl, rfl, rfl, rfl, rfl, rfl, rfl⟩

theorem dispatch_call {s : Setting} {i : Instruction} (op : i.op = .call) :
    dispatch s i = callee s i >>= fun target => call s target.1 target.2 := by
  simp only [dispatch, op, callee, bind_assoc, pure_bind]

theorem dispatch_ret {s : Setting} {i : Instruction} (op : i.op = .ret) :
    dispatch s i = result s i >>= ret := by
  simp only [dispatch, op, result, bind_assoc]

end Machine

end RegisterCode
