import Mathlib.Data.Set.Insert
import RegisterCode.Proofs.Code.Safety

/-!
What an instruction looks at. Two machines that differ in no more than the contents of their
registers, and that hold the same in those that the instruction reads, do the same: they go
on together, or they fail for the same reason. What is written is the same in both.
-/

namespace RegisterCode

namespace Machine

/-- The machine with other registers. -/
def refilled (m : Machine) (registers : Array Value) : Machine := { m with registers := registers }

/-- The machine without the value on top of its frame. -/
def lowered (m : Machine) : Machine := { m with top := m.top - 1 }

/-- The machine behind a condition, which goes on at that place. -/
def decided (flag : Bool) (place : Nat) (m : Machine) : Machine :=
  { m with flag := flag, place := place }

/-- The machine that goes on in a frame it was called from. -/
def resumed (frame : Frame) (saved : Array Value) (flag : Bool) (m : Machine) : Machine :=
  { m with
    operands := saved
    frames := m.frames.pop
    func := frame.func
    place := frame.place
    base := frame.base
    top := frame.top
    status := .ok
    flag := flag }

theorem returned_eq {m : Machine} (v : Value) (frame : Frame) (saved : Array Value) (flag : Bool)
    (inside : m.base < m.registers.size) : m.returned v frame saved flag inside =
      (m.refilled (m.registers.setIfInBounds m.base v)).resumed frame saved flag := by
  rw [← set_eq_setIfInBounds v inside]
  rfl

/-- The machines are the same but for the registers, and hold the same in the known ones. -/
structure AgreeOn (known : Set Nat) (m m' : Machine) : Prop where
  same : m' = m.refilled m'.registers
  size : m'.registers.size = m.registers.size
  agree : ∀ r ∈ known, m'.registers[r]? = m.registers[r]?

namespace AgreeOn

variable {known known' : Set Nat} {m m' : Machine}

theorem refl (known : Set Nat) (m : Machine) : AgreeOn known m m := ⟨rfl, rfl, fun _ _ => rfl⟩

theorem mono (h : AgreeOn known m m') (le : known' ⊆ known) : AgreeOn known' m m' :=
  ⟨h.same, h.size, fun r mem => h.agree r (le mem)⟩

/-! Machines that agree differ in nothing but registers. -/

theorem base (h : AgreeOn known m m') : m'.base = m.base := (congrArg Machine.base h.same :)

theorem top (h : AgreeOn known m m') : m'.top = m.top := (congrArg Machine.top h.same :)

theorem func (h : AgreeOn known m m') : m'.func = m.func := (congrArg Machine.func h.same :)

theorem place (h : AgreeOn known m m') : m'.place = m.place := (congrArg Machine.place h.same :)

theorem flag (h : AgreeOn known m m') : m'.flag = m.flag := (congrArg Machine.flag h.same :)

theorem frames (h : AgreeOn known m m') : m'.frames = m.frames := (congrArg Machine.frames h.same :)

theorem operands (h : AgreeOn known m m') : m'.operands = m.operands :=
  (congrArg Machine.operands h.same :)

/-- A register of which it is not known what is in it may hold anything. -/
theorem overwritten (m : Machine) {index : Nat} (unknown : index ∉ known) (v : Value) :
    AgreeOn known m (m.refilled (m.registers.setIfInBounds index v)) := by
  refine ⟨rfl, Array.size_setIfInBounds, fun r mem => Array.getElem?_setIfInBounds_ne ?_⟩
  rintro rfl
  exact unknown mem

/-- The second machine is the first one with other registers. -/
theorem elim (h : AgreeOn known m m') : ∃ registers : Array Value, m' = m.refilled registers ∧
    registers.size = m.registers.size ∧ ∀ r ∈ known, registers[r]? = m.registers[r]? :=
  ⟨m'.registers, h.same, h.size, h.agree⟩

/-- A change that the registers have no part in. -/
theorem map (h : AgreeOn known m m') (f : Machine → Machine)
    (blind : ∀ (m : Machine) (registers : Array Value),
      f (m.refilled registers) = (f m).refilled registers) :
    AgreeOn known (f m) (f m') := by
  obtain ⟨registers, rfl, size, agree⟩ := h.elim
  have whole : f m = (f m).refilled m.registers := blind m m.registers
  have same : (f m).registers = m.registers := by
    rw [whole]
    rfl
  rw [blind]
  refine ⟨rfl, ?_, fun r mem => ?_⟩
  · rw [same]
    exact size
  · rw [same]
    exact agree r mem

/-- The same value is written to the same register. -/
theorem set (h : AgreeOn known m m') (index : Nat) (v : Value) :
    AgreeOn (insert index known) (m.refilled (m.registers.setIfInBounds index v))
      (m'.refilled (m'.registers.setIfInBounds index v)) := by
  obtain ⟨registers, rfl, size, agree⟩ := h.elim
  refine ⟨rfl, ?_, fun r mem => ?_⟩
  · show (registers.setIfInBounds index v).size = (m.registers.setIfInBounds index v).size
    rw [Array.size_setIfInBounds, Array.size_setIfInBounds, size]
  · show (registers.setIfInBounds index v)[r]? = (m.registers.setIfInBounds index v)[r]?
    rw [Array.getElem?_setIfInBounds, Array.getElem?_setIfInBounds, size]
    split
    · rfl
    · exact agree r ((Set.mem_insert_iff.1 mem).resolve_left (Ne.symm ‹_›))

theorem started (h : AgreeOn known m m') : AgreeOn known m.started m'.started :=
  h.map Machine.started fun _ _ => rfl

theorem advanced (h : AgreeOn known m m') : AgreeOn known m.advanced m'.advanced :=
  h.map Machine.advanced fun _ _ => rfl

theorem lowered (h : AgreeOn known m m') : AgreeOn known m.lowered m'.lowered :=
  h.map Machine.lowered fun _ _ => rfl

theorem called (h : AgreeOn known m m') (func argc : Nat) :
    AgreeOn known (m.called func argc) (m'.called func argc) :=
  h.map (Machine.called func argc) fun _ _ => rfl

theorem assigned (h : AgreeOn known m m') (offset : Nat) (v : Value) :
    AgreeOn (insert (m.base + offset) known) (m.assigned offset v) (m'.assigned offset v) := by
  have wrote := h.set (m.base + offset) v
  obtain ⟨registers, rfl, -, -⟩ := h.elim
  exact wrote.map (fun n => (n.assigned offset v).refilled n.registers) fun _ _ => rfl

theorem pushed (h : AgreeOn known m m') (v : Value) :
    AgreeOn (insert m.top known) (m.pushed v) (m'.pushed v) := by
  have wrote := h.set m.top v
  obtain ⟨registers, rfl, -, -⟩ := h.elim
  exact wrote.map (fun n => (n.pushed v).refilled n.registers) fun _ _ => rfl

theorem combined (h : AgreeOn known m m') (v : Value) :
    AgreeOn (insert (m.top - 2) known) (m.combined v) (m'.combined v) := by
  have wrote := h.set (m.top - 2) v
  obtain ⟨registers, rfl, -, -⟩ := h.elim
  exact wrote.map (fun n => (n.combined v).refilled n.registers) fun _ _ => rfl

theorem returned (h : AgreeOn known m m') (v : Value) (frame : Frame) (saved : Array Value)
    (flag : Bool) (inside : m.base < m.registers.size) (inside' : m'.base < m'.registers.size) :
    AgreeOn (insert m.base known) (m.returned v frame saved flag inside)
      (m'.returned v frame saved flag inside') := by
  rw [returned_eq, returned_eq]
  have wrote := h.set m.base v
  obtain ⟨registers, rfl, -, -⟩ := h.elim
  exact wrote.map (resumed frame saved flag) fun _ _ => rfl

end AgreeOn

/-- A call fails whatever is in the registers. -/
theorem call_fails {s : Setting} {func argc : Nat} {m : Machine}
    (h : ¬ Callable s func argc m) : ∃ fault, fault.status ≠ .ok ∧
      ∀ registers, Machine.call s func argc (m.refilled registers) =
        .error fault (m.refilled registers) := by
  by_cases func_lt : func < s.program.chunks.size
  · by_cases depth_lt : m.frames.size < s.limits.depth
    · by_cases argc_le : argc ≤ m.top - m.base
      · have full : s.limits.operands < m.operands.size + 2 :=
          Nat.not_le.1 fun operands_le => h ⟨func_lt, depth_lt, argc_le, operands_le⟩
        exact ⟨.operandStackLimit, by decide,
          fun _ => call_of_full_operands func_lt depth_lt argc_le full⟩
      · refine ⟨.missingArguments, by decide, fun _ => ?_⟩
        simp [call, require, bind_apply, func_lt, depth_lt, argc_le, refilled]
    · exact ⟨.callDepthLimit, by decide, fun _ => call_of_full_frames func_lt depth_lt⟩
  · refine ⟨.unknownFunction, by decide, fun _ => ?_⟩
    simp [call, require, bind_apply, func_lt]

/-- A procedure that is not in the table. -/
theorem dispatch_nativeCall_unknown {s : Setting} {id count : Int16} (named : 0 ≤ id)
    (some : 0 ≤ count) (unknown : s.procedures[id.toNatClampNeg]? = none) (m : Machine) :
    dispatch s (.binary .nativeCall (.immediate id) (.immediate count)) m =
      .error .unknownProcedure m := by
  have op : (Instruction.binary .nativeCall (.immediate id) (.immediate count)).op =
      .nativeCall := rfl
  simp only [dispatch, op, requested, bind_apply, operand_binary_zero, operand_binary_one,
    count_immediate named, count_immediate some, unknown, need, throw_apply]

/-- The instruction fails in both machines, for the same reason. -/
def BothFail (s : Setting) (i : Instruction) (m m' : Machine) : Prop :=
  ∃ fault n n', fault.status ≠ .ok ∧ dispatch s i m = .error fault n ∧
    dispatch s i m' = .error fault n' ∧ AgreeOn ∅ n n'

namespace AgreeOn

variable {s : Setting} {known known' : Set Nat} {m m' : Machine} {src : Operand} {slot : Nat}

theorem fail (h : AgreeOn known m m') {i : Instruction} {fault : Fault}
    (bad : fault.status ≠ .ok) (error : dispatch s i m = .error fault m)
    (error' : dispatch s i m' = .error fault m') : BothFail s i m m' :=
  ⟨fault, m, m', bad, error, error', h.mono (Set.empty_subset _)⟩

/-- An operand that is no value on top of the frame. -/
theorem load (h : AgreeOn known m m') (plain : src.mode ≠ .stack)
    (reads : src.mode = .register → m.base + src.value.toNatClampNeg ∈ known) :
    (∃ v, Machine.load s src m = .ok v m ∧ Machine.load s src m' = .ok v m') ∨
      ∃ fault, fault.status ≠ .ok ∧ Machine.load s src m = .error fault m ∧
        Machine.load s src m' = .error fault m' := by
  have needed (fault : Fault) (bad : fault.status ≠ .ok) (x : Option Value) :
      (∃ v, need fault x m = .ok v m ∧ need fault x m' = .ok v m') ∨
        ∃ fault', fault'.status ≠ .ok ∧ need fault x m = .error fault' m ∧
          need fault x m' = .error fault' m' := by
    cases x with
    | none => exact .inr ⟨fault, bad, rfl, rfl⟩
    | some v => exact .inl ⟨v, rfl, rfl⟩
  unfold Machine.load
  cases mode : src.mode with
  | immediate => exact .inl ⟨_, rfl, rfl⟩
  | constant =>
      dsimp only
      split
      · exact .inr ⟨.unknownConstant, by decide, rfl, rfl⟩
      · exact needed .unknownConstant (by decide) _
  | register =>
      have agree := h.agree _ (reads mode)
      simp only [Machine.slot]
      split
      · exact .inr ⟨.negativeRegister, by decide, rfl, rfl⟩
      · simp only [bind_apply, get_apply, pure_apply, read, h.base, agree]
        exact needed .registerLimit (by decide) _
  | stack => exact absurd mode plain
  | object =>
      dsimp only
      split
      · exact .inr ⟨.negativeReference, by decide, rfl, rfl⟩
      · exact .inl ⟨_, rfl, rfl⟩

/-- Writing a register of the frame, and going on. -/
theorem assign (h : AgreeOn known m m') (small : slot < numberRange) (v : Value) :
    let a : Action Unit := Machine.assign (.register (Int16.ofNat slot)) v >>= fun _ => advance
    (a m = .ok () (m.assigned slot v).advanced ∧ a m' = .ok () (m'.assigned slot v).advanced) ∨
      a m = .error .registerLimit m ∧ a m' = .error .registerLimit m' := by
  intro a
  by_cases inside : m.base + slot < m.registers.size
  · have inside' : m'.base + slot < m'.registers.size := by rwa [h.size, h.base]
    exact .inl ⟨bind_of_ok (assign_slot v small inside), bind_of_ok (assign_slot v small inside')⟩
  · have beyond : m.registers.size ≤ m.base + slot := Nat.not_lt.1 inside
    have beyond' : m'.registers.size ≤ m'.base + slot := by rwa [h.size, h.base]
    exact .inr ⟨bind_of_error (assign_slot_of_le v small beyond),
      bind_of_error (assign_slot_of_le v small beyond')⟩

/-- Moving a value to a register of the frame. -/
theorem move (h : AgreeOn known m m') (small : slot < numberRange) (plain : src.mode ≠ .stack)
    (reads : src.mode = .register → m.base + src.value.toNatClampNeg ∈ known) :
    let i := Instruction.binary .mov (.register (Int16.ofNat slot)) src
    (∃ v, Machine.load s src m = .ok v m ∧
        dispatch s i m = .ok () (m.assigned slot v).advanced ∧
        dispatch s i m' = .ok () (m'.assigned slot v).advanced) ∨ BothFail s i m m' := by
  intro i
  rcases h.load plain reads with ⟨v, loads, loads'⟩ | ⟨fault, bad, loads, loads'⟩
  · rcases h.assign small v with ⟨ok, ok'⟩ | ⟨error, error'⟩
    · exact .inl ⟨v, loads, (dispatch_mov loads).trans ok, (dispatch_mov loads').trans ok'⟩
    · exact .inr (h.fail (by decide) ((dispatch_mov loads).trans error)
        ((dispatch_mov loads').trans error'))
  · exact .inr (h.fail bad (dispatch_mov_error loads) (dispatch_mov_error loads'))

/-- Moving the value on top of the frame to a register of the frame. -/
theorem store (h : AgreeOn known m m') (small : slot < numberRange) (seated : Seated m)
    (room : m.base < m.top) (reads : m.top - 1 ∈ known) :
    let i := Instruction.binary .mov (.register (Int16.ofNat slot)) .stack
    (∃ v, dispatch s i m = .ok () (m.lowered.assigned slot v).advanced ∧
        dispatch s i m' = .ok () (m'.lowered.assigned slot v).advanced) ∨ BothFail s i m m' := by
  intro i
  have top_le := seated.top_le
  have here : m.registers[m.top - 1]? = some m.registers[m.top - 1] :=
    Array.getElem?_eq_getElem (by omega)
  have there := (h.agree _ reads).trans here
  have loads : Machine.load s .stack m = .ok m.registers[m.top - 1] m.lowered :=
    load_stack room here
  have loads' : Machine.load s .stack m' = .ok m.registers[m.top - 1] m'.lowered := by
    have room' : m'.base < m'.top := by rwa [h.base, h.top]
    exact load_stack room' (by rwa [h.top])
  rcases h.lowered.assign small m.registers[m.top - 1] with ⟨ok, ok'⟩ | ⟨error, error'⟩
  · exact .inl ⟨_, (dispatch_mov loads).trans ok, (dispatch_mov loads').trans ok'⟩
  · exact .inr ⟨_, _, _, by decide, (dispatch_mov loads).trans error,
      (dispatch_mov loads').trans error', h.lowered.mono (Set.empty_subset _)⟩

/-- Putting a value on top of the frame. -/
theorem push (h : AgreeOn known m m') (plain : src.mode ≠ .stack)
    (reads : src.mode = .register → m.base + src.value.toNatClampNeg ∈ known) :
    let i := Instruction.unary .push src
    (∃ v, dispatch s i m = .ok () (m.pushed v).advanced ∧
        dispatch s i m' = .ok () (m'.pushed v).advanced) ∨ BothFail s i m m' := by
  intro i
  rcases h.load plain reads with ⟨v, loads, loads'⟩ | ⟨fault, bad, loads, loads'⟩
  · have dispatched := dispatch_push loads
    have dispatched' := dispatch_push loads'
    by_cases inside : m.top < m.registers.size
    · have inside' : m'.top < m'.registers.size := by rwa [h.size, h.top]
      rw [bind_of_ok (push_of_room v inside)] at dispatched
      rw [bind_of_ok (push_of_room v inside')] at dispatched'
      exact .inl ⟨v, dispatched, dispatched'⟩
    · have beyond : m.registers.size ≤ m.top := Nat.not_lt.1 inside
      have beyond' : m'.registers.size ≤ m'.top := by rwa [h.size, h.top]
      rw [bind_of_error (push_of_le v beyond)] at dispatched
      rw [bind_of_error (push_of_le v beyond')] at dispatched'
      exact .inr (h.fail (by decide) dispatched dispatched')
  · exact .inr (h.fail bad (dispatch_push_error loads) (dispatch_push_error loads'))

/-- Negating a register of the frame. -/
theorem neg (h : AgreeOn known m m') (small : slot < numberRange)
    (reads : m.base + slot ∈ known) :
    let i := Instruction.unary .neg (.register (Int16.ofNat slot))
    (∃ v, dispatch s i m = .ok () (m.assigned slot v).advanced ∧
        dispatch s i m' = .ok () (m'.assigned slot v).advanced) ∨ BothFail s i m m' := by
  intro i
  have register : (Operand.register (Int16.ofNat slot)).mode = .register := rfl
  have value : (Operand.register (Int16.ofNat slot)).value.toNatClampNeg = slot :=
    toNatClampNeg_ofNat_of_small small
  have plain : (Operand.register (Int16.ofNat slot)).mode ≠ .stack := by
    rw [register]
    decide
  rcases h.load (s := s) plain fun _ => value.symm ▸ reads with
    ⟨v, loads, loads'⟩ | ⟨fault, bad, loads, loads'⟩
  · have dispatched := dispatch_neg register loads
    have dispatched' := dispatch_neg register loads'
    cases dud : v.neg.isDud with
    | true =>
        rw [dud, if_pos rfl] at dispatched dispatched'
        exact .inr (h.fail (by decide) dispatched dispatched')
    | false =>
        rw [dud, if_neg Bool.false_ne_true] at dispatched dispatched'
        rcases h.assign small v.neg with ⟨ok, ok'⟩ | ⟨error, error'⟩
        · exact .inl ⟨_, dispatched.trans ok, dispatched'.trans ok'⟩
        · exact .inr (h.fail (by decide) (dispatched.trans error) (dispatched'.trans error'))
  · exact .inr (h.fail bad (dispatch_neg_error register loads)
      (dispatch_neg_error register loads'))

/-- Combining the two values on top of the frame. -/
theorem operate (h : AgreeOn known m m') (op : BinaryOp) (seated : Seated m)
    (room : m.base + 2 ≤ m.top) (left : m.top - 2 ∈ known) (right : m.top - 1 ∈ known) :
    let i := Instruction.nonary (.binary op)
    (∃ v, dispatch s i m = .ok () (m.combined v).advanced ∧
        dispatch s i m' = .ok () (m'.combined v).advanced) ∨ BothFail s i m m' := by
  intro i
  have top_le := seated.top_le
  have here : m.registers[m.top - 2]? = some m.registers[m.top - 2] :=
    Array.getElem?_eq_getElem (by omega)
  have here' : m.registers[m.top - 1]? = some m.registers[m.top - 1] :=
    Array.getElem?_eq_getElem (by omega)
  have room' : m'.base + 2 ≤ m'.top := by rwa [h.base, h.top]
  have there : m'.registers[m'.top - 2]? = some m.registers[m.top - 2] := by
    rw [h.top]
    exact (h.agree _ left).trans here
  have there' : m'.registers[m'.top - 1]? = some m.registers[m.top - 1] := by
    rw [h.top]
    exact (h.agree _ right).trans here'
  have dispatched : dispatch s (.nonary (.binary op)) m = _ := dispatch_binary room here here'
  have dispatched' : dispatch s (.nonary (.binary op)) m' = _ :=
    dispatch_binary room' there there'
  cases outcome : op.outcome m.registers[m.top - 2] m.registers[m.top - 1] with
  | ok v =>
      rw [outcome] at dispatched dispatched'
      exact .inl ⟨v, dispatched, dispatched'⟩
  | error fault =>
      rw [outcome] at dispatched dispatched'
      have dropped := h.map (fun m => { m with top := m.top - 2 }) fun _ _ => rfl
      exact .inr ⟨_, _, _, (BinaryOp.isOwn_of_outcome outcome).1, dispatched, dispatched',
        dropped.mono (Set.empty_subset _)⟩

/-- Going on behind a condition or at a target. -/
theorem jumpElse (h : AgreeOn known m m') {place : Int16} (named : 0 ≤ place)
    (plain : src.mode ≠ .stack)
    (reads : src.mode = .register → m.base + src.value.toNatClampNeg ∈ known) :
    let i := Instruction.binary .jumpElse src (.immediate place)
    (∃ flag next, (next = m.place + 1 ∨ next = place.toNatClampNeg) ∧
        dispatch s i m = .ok () (decided flag next m) ∧
        dispatch s i m' = .ok () (decided flag next m')) ∨ BothFail s i m m' := by
  intro i
  rcases h.load plain reads with ⟨v, loads, loads'⟩ | ⟨fault, bad, loads, loads'⟩
  · have dispatched := dispatch_jumpElse named loads
    have dispatched' := dispatch_jumpElse named loads'
    cases truth : v.truthy? with
    | none =>
        rw [truth] at dispatched dispatched'
        exact .inr (h.fail (by decide) dispatched dispatched')
    | some taken =>
        rw [truth] at dispatched dispatched'
        cases taken with
        | true =>
            rw [h.place] at dispatched'
            exact .inl ⟨true, _, .inl rfl, dispatched, dispatched'⟩
        | false => exact .inl ⟨false, _, .inr rfl, dispatched, dispatched'⟩
  · exact .inr (h.fail bad (dispatch_jumpElse_error loads) (dispatch_jumpElse_error loads'))

/-- Going back to the frame that the call was made from. -/
theorem ret (h : AgreeOn known m m') {limits : Limits} (framed : Framed limits m)
    (opened : m.frames ≠ #[]) (plain : src.mode ≠ .stack)
    (reads : src.mode = .register → m.base + src.value.toNatClampNeg ∈ known) :
    let i := Instruction.unary .ret src
    (∃ v, ∃ frames : Array Frame, ∃ frame saved flag inside inside', m.frames = frames.push frame ∧
        dispatch s i m = .ok () (m.returned v frame saved flag inside) ∧
        dispatch s i m' = .ok () (m'.returned v frame saved flag inside')) ∨
      BothFail s i m m' := by
  intro i
  rcases h.load plain reads with ⟨v, loads, loads'⟩ | ⟨fault, bad, loads, loads'⟩
  · have dispatched := dispatch_ret_of_load loads
    have dispatched' := dispatch_ret_of_load loads'
    by_cases inside : m.base < m.registers.size
    · have inside' : m'.base < m'.registers.size := by rwa [h.size, h.base]
      obtain ⟨frames, frame, saved, flag, frames_eq, operands_eq⟩ := framed.split opened
      exact .inl ⟨v, frames, frame, saved, flag, inside, inside', frames_eq,
        dispatched.trans (ret_of_lt v inside frames_eq operands_eq),
        dispatched'.trans (ret_of_lt v inside' (h.frames.trans frames_eq)
          (h.operands.trans operands_eq))⟩
    · have beyond : m.registers.size ≤ m.base := Nat.not_lt.1 inside
      have beyond' : m'.registers.size ≤ m'.base := by rwa [h.size, h.base]
      exact .inr (h.fail (by decide) (dispatched.trans (ret_of_le v beyond))
        (dispatched'.trans (ret_of_le v beyond')))
  · exact .inr (h.fail bad (dispatch_ret_error loads) (dispatch_ret_error loads'))

/-- Opening a frame, which no register has a part in. -/
theorem call (h : AgreeOn known m m') {func count : Int16} (named : 0 ≤ func) (some : 0 ≤ count) :
    let i := Instruction.binary .call (.immediate func) (.immediate count)
    (Callable s func.toNatClampNeg count.toNatClampNeg m ∧
        dispatch s i m = .ok () (m.called func.toNatClampNeg count.toNatClampNeg) ∧
        dispatch s i m' = .ok () (m'.called func.toNatClampNeg count.toNatClampNeg)) ∨
      BothFail s i m m' := by
  intro i
  have dispatched := dispatch_call_immediate (s := s) named some m
  have dispatched' := dispatch_call_immediate (s := s) named some m'
  by_cases callable : Callable s func.toNatClampNeg count.toNatClampNeg m
  · have callable' : Callable s func.toNatClampNeg count.toNatClampNeg m' := by
      rw [h.same]
      exact ⟨callable.func_lt, callable.depth_lt, callable.argc_le, callable.operands_le⟩
    exact .inl ⟨callable, dispatched.trans (call_of_callable callable),
      dispatched'.trans (call_of_callable callable')⟩
  · obtain ⟨fault, bad, fails⟩ := call_fails callable
    have fails' := fails m'.registers
    rw [← h.same] at fails'
    exact .inr (h.fail bad (dispatched.trans (fails m.registers)) (dispatched'.trans fails'))

/-- What confined procedures have made of the machines, when it is the same in the world and in
the register for the answer. -/
theorem worked (h : AgreeOn known m m') (le : known' ⊆ known) {count : UInt16} {n n' : Machine}
    (confined : Confined count m n) (confined' : Confined count m' n') (world : n.world = n'.world)
    (answer : ∀ r ∈ known', r + count.toNat = m.top → n'.registers[r]? = n.registers[r]?) :
    AgreeOn known' n n' where
  same := by
    have store : n'.store = n.store := congrArg World.store world.symm
    have input : n'.input = n.input := congrArg World.input world.symm
    have output : n'.output = n.output := congrArg World.output world.symm
    have whole : n' = (m.withWorld n.world).refilled n'.registers := by
      rw [confined'.same, h.same, store, input, output]
      rfl
    rw [confined.same]
    exact whole
  size := confined'.size.trans (h.size.trans confined.size.symm)
  agree r mem := by
    by_cases first : m.base + count.toNat ≤ m.top ∧ r + count.toNat = m.top
    · exact answer r mem first.2
    · rw [confined.other r first, confined'.other r (by rwa [h.base, h.top])]
      exact h.agree r (le mem)

/-- Calling a procedure on the values of a window. -/
theorem nativeCall (h : AgreeOn known m m') (lawful : s.Lawful) {id count : Int16}
    (named : 0 ≤ id) (some : 0 ≤ count) (positive : 0 < count.toNatClampNeg) (seated : Seated m)
    (room : m.base + count.toNatClampNeg ≤ m.top)
    (reads : ∀ r < m.top, m.top ≤ r + count.toNatClampNeg → r ∈ known) :
    let i := Instruction.binary .nativeCall (.immediate id) (.immediate count)
    (∃ n n', dispatch s i m = .ok () n.advanced ∧ dispatch s i m' = .ok () n'.advanced ∧
        Confined (UInt16.ofNat count.toNatClampNeg) m n ∧ AgreeOn known n n') ∨
      BothFail s i m m' := by
  intro i
  have small : count.toNatClampNeg < UInt16.size := Nat.lt_trans count.toNatClampNeg_lt (by decide)
  have number : (UInt16.ofNat count.toNatClampNeg).toNat = count.toNatClampNeg :=
    UInt16.toNat_ofNat_of_lt small
  have top_le := seated.top_le
  have twin : Twin (UInt16.ofNat count.toNatClampNeg) m m' := by
    refine ⟨by rw [h.same]; rfl, ?_, ?_, top_le, ?_, fun j lt => ?_⟩
    · rw [number]
      exact room
    · rw [number, h.base, h.top]
      exact room
    · rw [h.top, h.size]
      exact top_le
    · rw [number] at lt ⊢
      rw [h.top]
      exact (h.agree _ (reads _ (by omega) (by omega))).symm
  cases found : s.procedures[id.toNatClampNeg]? with
  | none =>
      exact .inr (h.fail (by decide)
        (dispatch_nativeCall_unknown named some found m)
        (dispatch_nativeCall_unknown named some found m'))
  | some p =>
      have dispatched := dispatch_nativeCall named some found m
      have dispatched' := dispatch_nativeCall named some found m'
      obtain ⟨confined, couples⟩ := lawful p (Array.mem_of_getElem? found)
      rcases couples _ m m' twin with ⟨⟨⟩, n, n', run, run', twin'⟩ |
        ⟨fault, n, n', run, run', world, own⟩
      · have works := (confined _).ok run
        have works' := (confined _).ok run'
        refine .inl ⟨n, n', dispatched.trans (bind_of_ok run), dispatched'.trans (bind_of_ok run'),
          works, h.worked subset_rfl works works' twin'.world fun r _ first => ?_⟩
        have held := twin'.window 0 (by rw [number]; exact positive)
        have top : n.top = m.top := by rw [works.same]
        have top' : n'.top = m.top := by rw [works'.same, h.same]; rfl
        have here : m.top - (UInt16.ofNat count.toNatClampNeg).toNat + 0 = r := by omega
        rw [top, top', here] at held
        exact held.symm
      · exact .inr ⟨fault, n, n', own.1, dispatched.trans (bind_of_error run),
          dispatched'.trans (bind_of_error run'),
          h.worked (Set.empty_subset _) ((confined _).error run) ((confined _).error run') world
            fun _ none => none.elim⟩

end AgreeOn

end Machine

end RegisterCode
