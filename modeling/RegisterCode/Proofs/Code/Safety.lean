import RegisterCode.Proofs.Code.Calls
import RegisterCode.Proofs.Code.Linking
import RegisterCode.Proofs.Machine.Checks

/-!
Compiled code does not go wrong. A machine that runs the code of orderly listings is at
all times amid a step of one of them, with the values on top of its frame that the step has
put there, and with room for what the steps before have written (`Safe`). So only few faults
can be met, and each of them for its own reason (`Machine.Cause`).
-/

namespace RegisterCode

/-! ### Reasons of faults -/

namespace Value

/-- The values that can neither be negated nor decide: a dud and a reference. -/
def isOpaque : Value → Bool
  | dud | object _ => true
  | _ => false

theorem isDud_neg (v : Value) : v.neg.isDud = v.isOpaque := by cases v <;> rfl

theorem isOpaque_of_truthy? {v : Value} (h : v.truthy? = none) : v.isOpaque = true := by
  cases v <;> first | rfl | cases h

end Value

namespace BinaryOp

/-- The kinds of operands that an operator works on. -/
def accepts (op : BinaryOp) : Value → Value → Bool
  | .int _, .int _ => true
  | .float _, .float _ => op ≠ .mod
  | .bool _, .bool _ | .object _, .object _ => op = .equ || op = .neq
  | _, _ => false

/-- An operator fails on operands that it works on only for a zero divisor. -/
theorem not_accepts_of_outcome {op : BinaryOp} {x y : Value}
    (h : op.outcome x y = .error .badOperands) : op.accepts x y = false := by
  cases accepted : op.accepts x y with
  | false => rfl
  | true =>
      have zero : op.apply x y = .dud → (op.divides && x.sameKind y && y.isZero) = true := by
        cases x <;> cases y <;> cases op <;>
          simp [accepts, apply, divides, Value.sameKind, Value.kindName, Value.isZero, Value.mul,
            Value.div, Value.rem, Value.add, Value.sub, Value.equ, Value.neq, Value.neg, Value.lt,
            Value.gt, Value.lte, Value.gte] at accepted ⊢
      unfold outcome at h
      split at h
      · rename_i dud
        rw [if_pos (zero dud)] at h
        cases h
      · cases h

theorem isZero_of_outcome {op : BinaryOp} {x y : Value}
    (h : op.outcome x y = .error .zeroDivisor) : y.isZero = true := by
  unfold outcome at h
  split at h
  · split at h
    · rename_i zero
      exact (Bool.and_eq_true _ _ ▸ zero).2
    · cases h
  · cases h

/-- These are its only faults. -/
theorem outcome_error {op : BinaryOp} {x y : Value} {fault : Fault}
    (h : op.outcome x y = .error fault) : fault = .badOperands ∨ fault = .zeroDivisor := by
  unfold outcome at h
  split at h
  · split at h <;> cases h
    · exact .inr rfl
    · exact .inl rfl
  · cases h

end BinaryOp

namespace Machine

/-- The registers that an instruction reads or writes: those that its operands name, the one at
the top, where it puts a value, and the first one of the frame, where it leaves the result. -/
inductive Uses (m : Machine) (i : Instruction) : Nat → Prop where
  | named {slot : Nat} {value : Int16} (operand : i.operand? slot = some (.register value)) :
      Uses m i (m.base + value.toNatClampNeg)
  | top (is : i.op = .push) : Uses m i m.top
  | first (is : i.op = .ret) : Uses m i m.base

/-- Why compiled code fails with a fault at an instruction, or where there is none. -/
inductive Cause (s : Setting) (m : Machine) : Option Instruction → Fault → Prop where
  | endOfCode : Cause s m none .endOfCode
  | registers {i : Instruction} {index : Nat} (uses : m.Uses i index)
    (beyond : m.registers.size ≤ index) : Cause s m (some i) .registerLimit
  | operands {i : Instruction} {op : BinaryOp} {x y : Value} (is : i.op = .binary op)
    (left : m.registers[m.top - 2]? = some x) (right : m.registers[m.top - 1]? = some y)
    (unfit : op.accepts x y = false) : Cause s m (some i) .badOperands
  | divisor {i : Instruction} {op : BinaryOp} {y : Value} (is : i.op = .binary op)
    (right : m.registers[m.top - 1]? = some y) (zero : y.isZero = true) :
    Cause s m (some i) .zeroDivisor
  | negation {i : Instruction} {x : Operand} {v : Value} {n : Machine} (is : i.op = .neg)
    (operand : i.operand? 0 = some x) (loads : load s x m.started = .ok v n)
    (unfit : v.isOpaque = true) : Cause s m (some i) .badOperands
  | condition {i : Instruction} {x : Operand} {v : Value} {n : Machine} (is : i.op = .jumpElse)
    (operand : i.operand? 0 = some x) (loads : load s x m.started = .ok v n)
    (unfit : v.isOpaque = true) : Cause s m (some i) .undecidedCondition
  | depth {i : Instruction} (is : i.op = .call) (full : s.limits.depth ≤ m.depth) :
    Cause s m (some i) .callDepthLimit
  | specials {i : Instruction} (is : i.op = .call)
    (full : s.limits.operands < m.operands.size + 2) : Cause s m (some i) .operandStackLimit
  | own {i : Instruction} {p : Procedure} {count : UInt16} {fault : Fault}
    (is : i.op = .nativeCall) (requests : requested s i m.started = .ok (p, count) m.started)
    (objection : Objection (m.given count) p fault) : Cause s m (some i) fault

end Machine

/-! ### Instructions that fail -/

namespace Machine

variable {s : Setting} {dest src : Operand} {place : Operand} {m n : Machine} {fault : Fault}

theorem dispatch_mov_error (h : load s src m = .error fault n) :
    dispatch s (.binary .mov dest src) m = .error fault n := by
  have op : (Instruction.binary .mov dest src).op = .mov := rfl
  simp only [dispatch, op, bind_apply, operand_binary_zero, operand_binary_one, h]

theorem dispatch_push_error (h : load s src m = .error fault n) :
    dispatch s (.unary .push src) m = .error fault n := by
  have op : (Instruction.unary .push src).op = .push := rfl
  simp only [dispatch, op, bind_apply, operand_unary, h]

theorem dispatch_neg_error (mode : dest.mode = .register) (h : load s dest m = .error fault n) :
    dispatch s (.unary .neg dest) m = .error fault n := by
  have op : (Instruction.unary .neg dest).op = .neg := rfl
  simp only [dispatch, op, bind_apply, operand_unary, mode, require, decide_true, if_true, h,
    pure_apply]

theorem dispatch_jumpElse_error (h : load s src m = .error fault n) :
    dispatch s (.binary .jumpElse src place) m = .error fault n := by
  have op : (Instruction.binary .jumpElse src place).op = .jumpElse := rfl
  simp only [dispatch, op, jumpWhen, bind_apply, operand_binary_zero, h]

theorem call_of_full_frames {func argc : Nat} (known : func < s.program.chunks.size)
    (full : ¬ m.frames.size < s.limits.depth) :
    call s func argc m = .error .callDepthLimit m := by
  simp [call, require, bind_apply, known, full]

theorem call_of_full_operands {func argc : Nat} (known : func < s.program.chunks.size)
    (depth : m.frames.size < s.limits.depth) (argc_le : argc ≤ m.top - m.base)
    (full : s.limits.operands < m.operands.size + 2) :
    call s func argc m = .error .operandStackLimit m := by
  simp [call, require, bind_apply, known, depth, argc_le, saveSpecials_of_lt full]

theorem dispatch_ret_error (h : load s src m = .error fault n) :
    dispatch s (.unary .ret src) m = .error fault n := by
  have op : (Instruction.unary .ret src).op = .ret := rfl
  simp only [dispatch, op, bind_apply, operand_unary, h]

end Machine

/-! ### Where the machine is -/

/-- What the steps since the last landing wrote lies below `floor`. -/
def Listing.Recent (l : Listing) (k base floor : Nat) : Prop :=
  ∀ p t, p < k → (∀ q, p < q → q ≤ k → l.steps[q]? ≠ some (.act .nop)) →
    l.writes? p = some t → base + l.slot t < floor

/-- How many values lie on top of the frame after `j` instructions of a step. -/
def Step.held : Step → Nat → Nat
  | .binary .., 1 => 1
  | .binary .., 2 => 2
  | .binary .., 3 => 1
  | _, _ => 0

@[simp] theorem Step.held_zero (step : Step) : step.held 0 = 0 := by cases step <;> rfl

/-- A step that writes something has instructions. -/
theorem Step.width_pos_of_dest {step : Step} {t : Int16}
    (writes : step.dest?.map Address.id = some t) : 0 < step.width := by
  cases step with
  | unary dest op arg =>
      cases op with
      | neg =>
          show 0 < if dest = arg then 1 else 2
          split <;> decide
      | _ => exact Nat.one_pos
  | binary => exact Nat.succ_pos _
  | _ => cases writes

namespace Listing.Recent

variable {l : Listing} {k base floor floor' : Nat} {t : Int16}

theorem zero (l : Listing) (base floor : Nat) : l.Recent 0 base floor :=
  fun _ _ lt => absurd lt (Nat.not_lt_zero _)

theorem mono (h : l.Recent k base floor) (le : floor ≤ floor') : l.Recent k base floor' :=
  fun p t lt straight wrote => Nat.lt_of_lt_of_le (h p t lt straight wrote) le

theorem silent (h : l.Recent k base floor) (silent : l.writes? k = none) :
    l.Recent (k + 1) base floor := by
  intro p t lt straight wrote
  have before : p ≠ k := by
    rintro rfl
    rw [silent] at wrote
    cases wrote
  exact h p t (by omega) (fun q lt le => straight q lt (Nat.le_succ_of_le le)) wrote

theorem written (h : l.Recent k base floor) (writes : l.writes? k = some t) :
    l.Recent (k + 1) base (max floor (base + l.slot t + 1)) := by
  intro p t' lt straight wrote
  by_cases last : p = k
  · subst last
    rw [writes] at wrote
    cases wrote
    omega
  · have below := h p t' (by omega) (fun q lt le => straight q lt (Nat.le_succ_of_le le)) wrote
    omega

theorem landed (nop : l.steps[k]? = some (.act .nop)) : l.Recent k base floor :=
  fun _ _ lt straight _ => absurd nop (straight k lt (Nat.le_refl _))

/-- The window of a call lies in the frame. -/
theorem window {n : Nat} {step : Step} (h : l.Recent k base floor)
    (found : l.steps[k]? = some step) (isCall : step.window? = some n) (window : l.Window k n) :
    base + n ≤ floor := by
  have positive := window.positive
  have le := window.le
  obtain ⟨t, written, -⟩ := window.writes (i := n - 1) (by omega)
  have slot := window.slot_eq (i := n - 1) (by omega) written
  have last : k - n + (n - 1) = k - 1 := by omega
  rw [last] at written
  have below := h (k - 1) t (by omega) (fun q lt le => ?_) written
  · omega
  · obtain rfl : q = k := by omega
    rw [found]
    intro same
    cases same
    cases isCall

end Listing.Recent

/-- The machine is amid a step, whose values lie on top of the frame. -/
structure Sited (c : Chart) (m : Machine) (l : Listing) (k j : Nat) : Prop where
  known : c.listings[m.func]? = some l
  place : m.place = l.place k + j
  amid : j = 0 ∨ ∃ step, l.steps[k]? = some step ∧ j < step.width
  held : ∃ floor, m.base ≤ floor ∧ l.Recent k m.base floor ∧
    floor + l.steps[k]?.elim 0 (·.held j) ≤ m.top

/-- A frame whose function goes on in front of a step. -/
def Suspended (c : Chart) (frame : Frame) : Prop :=
  ∃ l k, c.listings[frame.func]? = some l ∧ frame.place = l.place k ∧
    frame.base ≤ frame.top ∧ l.Recent k frame.base frame.top

/-- All frames that the machine returns to are suspended. The lowest frame is that of the
host. -/
def Stacked (c : Chart) (frames : Array Frame) : Prop :=
  ∃ host rest, frames.toList = host :: rest ∧ ∀ frame ∈ rest, Suspended c frame

/-- A machine that runs compiled code. -/
structure Safe (c : Chart) (m : Machine) : Prop where
  sited : ∃ l k j, Sited c m l k j
  stacked : Stacked c m.frames

namespace Sited

variable {s : Setting} {c : Chart} {m : Machine} {l : Listing} {k j : Nat}

/-- In front of a step the top is above what was written. -/
theorem front {floor : Nat} (known : c.listings[m.func]? = some l) (place : m.place = l.place k)
    (base_le : m.base ≤ floor) (recent : l.Recent k m.base floor) (top : floor ≤ m.top) :
    Sited c m l k 0 := by
  refine ⟨known, place, .inl rfl, floor, base_le, recent, ?_⟩
  cases l.steps[k]? with
  | none => exact top
  | some step =>
      show floor + step.held 0 ≤ m.top
      rwa [Step.held_zero, Nat.add_zero]

/-- The step whose instruction is next. -/
theorem fetch (linked : Linked s c) (h : Sited c m l k j) {i : Instruction}
    (fetched : s.program.fetch? m.func m.place = some i) :
    ∃ k' step j', l.steps[k']? = some step ∧ (l.code k' step)[j']? = some i ∧
      m.place = l.place k' + j' ∧
      ∃ floor, m.base ≤ floor ∧ l.Recent k' m.base floor ∧ floor + step.held j' ≤ m.top := by
  have orderly := linked.orderly l (List.mem_of_getElem? h.known)
  obtain ⟨chunk, found, here⟩ := Option.bind_eq_some_iff.1 fetched
  obtain ⟨chunk', found', assembled⟩ := linked.assembled _ l h.known
  rw [found] at found'
  cases found'
  obtain ⟨k', step, j', found, place, code⟩ := assembled.origin orderly here
  refine ⟨k', step, j', found, code, place, ?_⟩
  have inside : j' < step.width := by
    have length := Listing.length_codeWith (l := l) (orderly.legal k' step found) l.landing k'
    rw [Listing.codeWith_landing] at length
    rw [← length]
    exact (List.getElem?_eq_some_iff.1 code).1
  have next := Listing.place_succ found
  obtain ⟨floor, base_le, recent, held⟩ := h.held
  have at_ := h.place
  by_cases same : k' = k
  · subst same
    obtain rfl : j' = j := by omega
    rw [found] at held
    exact ⟨floor, base_le, recent, held⟩
  · -- The steps in between have no instructions, so they are not landings, and write nothing.
    have first : j = 0 := by
      refine h.amid.resolve_right ?_
      rintro ⟨step', found', lt⟩
      have next' := Listing.place_succ found'
      rcases Nat.lt_or_gt_of_ne same with lt' | lt'
      · have le : l.place (k' + 1) ≤ l.place k := l.place_mono lt'
        omega
      · have le : l.place (k + 1) ≤ l.place k' := l.place_mono lt'
        omega
    subst first
    have ahead : k < k' := by
      refine Nat.lt_of_le_of_ne (Nat.not_lt.1 fun lt => ?_) (Ne.symm same)
      have le : l.place (k' + 1) ≤ l.place k := l.place_mono lt
      omega
    have first' : j' = 0 := by
      have le : l.place k ≤ l.place k' := l.place_mono (Nat.le_of_lt ahead)
      omega
    subst first'
    have recent' : ∀ d, k + d ≤ k' → l.Recent (k + d) m.base floor := by
      intro d
      induction d with
      | zero => exact fun _ => recent
      | succ d ih =>
          intro le
          have inside : k + d < l.steps.length :=
            Nat.lt_of_lt_of_le (Nat.lt_of_succ_le le)
              (Nat.le_of_lt (List.getElem?_eq_some_iff.1 found).1)
          have found' : l.steps[k + d]? = some l.steps[k + d] := List.getElem?_eq_getElem inside
          have low : l.place k ≤ l.place (k + d) := l.place_mono (Nat.le_add_right _ _)
          have high : l.place (k + d + 1) ≤ l.place k' := l.place_mono le
          have empty : (l.steps[k + d]).width = 0 := by
            have := Listing.place_succ found'
            omega
          refine (ih (Nat.le_of_succ_le le)).silent ?_
          cases writes : l.writes? (k + d) with
          | none => rfl
          | some t =>
              obtain ⟨step', found'', dest⟩ := Listing.writes?_eq_some writes
              rw [found'] at found''
              cases found''
              have positive := Step.width_pos_of_dest dest
              omega
    have held' : floor ≤ m.top := Nat.le_trans (Nat.le_add_right _ _) held
    refine ⟨floor, base_le, ?_, ?_⟩
    · have recent := recent' (k' - k) (by omega)
      rwa [Nat.add_sub_cancel' (Nat.le_of_lt ahead)] at recent
    · rwa [Step.held_zero, Nat.add_zero]

end Sited

/-! ### Single instructions -/

section

variable {s : Setting} {c : Chart} {m : Machine} {l : Listing} {k j floor : Nat} {step : Step}
  {i : Instruction}

/-- The instruction leads to a safe machine, or fails for a reason. -/
def Proceeds (s : Setting) (c : Chart) (m : Machine) (i : Instruction) : Prop :=
  match Machine.dispatch s i m.started with
  | .ok _ n => n.isRunning = true → Safe c n
  | .error fault _ => m.Cause s (some i) fault

theorem Proceeds.of_ok {n : Machine} (ok : Machine.dispatch s i m.started = .ok () n)
    (safe : Safe c n) : Proceeds s c m i := by
  rw [Proceeds, ok]
  exact fun _ => safe

theorem Proceeds.of_error {fault : Fault} {n : Machine}
    (error : Machine.dispatch s i m.started = .error fault n) (cause : m.Cause s (some i) fault) :
    Proceeds s c m i := by
  rw [Proceeds, error]
  exact cause

/-- An operand can be read, or lies beyond the registers. -/
theorem load_cases (linked : Linked s c) {a : Address} (sound : a.Sound c.constants.size)
    (small : ∀ t, a.temp? = some t → l.slot t < numberRange) (m : Machine) :
    (∃ v, Machine.load s (l.operand a) m = .ok v m) ∨
      Machine.load s (l.operand a) m = .error .registerLimit m ∧
        ∃ value, l.operand a = .register value ∧
          m.registers.size ≤ m.base + value.toNatClampNeg := by
  obtain ⟨space, id⟩ := a
  cases space with
  | immediate => exact .inl ⟨_, rfl⟩
  | constant =>
      have inside : id.toNatClampNeg < s.program.constants.size := linked.constants ▸ sound.2
      exact .inl ⟨_, Machine.load_constant sound.1 (Array.getElem?_eq_getElem inside) m⟩
  | temp =>
      cases here : m.registers[m.base + l.slot id]? with
      | some v => exact .inl ⟨v, Machine.load_register (small id rfl) here⟩
      | none =>
          have value := Machine.toNatClampNeg_ofNat_of_small (small id rfl)
          have natural : ¬ Int16.ofNat (l.slot id) < 0 :=
            Int16.not_lt.2 (Machine.zero_le_ofNat_of_small (small id rfl))
          refine .inr ⟨?_, _, rfl, by rw [value]; exact Array.getElem?_eq_none_iff.1 here⟩
          simp only [Machine.load, Listing.operand, Operand.register, Machine.slot, natural,
            if_false, value, bind_apply, get_apply, pure_apply, Machine.read, here]
          rfl
  | object => exact sound.elim

/-- An operand names a register that there is not. -/
theorem Machine.Cause.of_operand {slot : Nat} {x : Operand} (operand : i.operand? slot = some x)
    (beyond : ∃ value, x = .register value ∧ m.registers.size ≤ m.base + value.toNatClampNeg) :
    m.Cause s (some i) .registerLimit := by
  obtain ⟨value, rfl, beyond⟩ := beyond
  exact .registers (.named operand) beyond

/-- The machine at the next instruction of the step, with so many values on top. -/
theorem Safe.next (h : Safe c m) (known : c.listings[m.func]? = some l) {n : Machine}
    (frames : n.frames = m.frames) (func : n.func = m.func) (base : n.base = m.base)
    (place : n.place = l.place k + j)
    (amid : j = 0 ∨ ∃ step, l.steps[k]? = some step ∧ j < step.width)
    (base_le : m.base ≤ floor) (recent : l.Recent k m.base floor)
    (held : floor + l.steps[k]?.elim 0 (·.held j) ≤ n.top) : Safe c n := by
  refine ⟨⟨l, k, j, ?_, place, amid, floor, ?_, ?_, held⟩, ?_⟩
  · rw [func]
    exact known
  · rw [base]
    exact base_le
  · rw [base]
    exact recent
  · rw [frames]
    exact h.stacked

/-- The machine behind the step. -/
theorem Safe.done (h : Safe c m) (known : c.listings[m.func]? = some l) {n : Machine}
    (frames : n.frames = m.frames) (func : n.func = m.func) (base : n.base = m.base)
    (place : n.place = l.place k) (base_le : m.base ≤ floor) (recent : l.Recent k m.base floor)
    (top : floor ≤ n.top) : Safe c n := by
  rw [← base] at base_le recent
  rw [← func] at known
  exact ⟨⟨l, k, 0, .front known place base_le recent top⟩, frames ▸ h.stacked⟩

/-- What is known of the step at hand. -/
structure Amid (s : Setting) (c : Chart) (m : Machine) (l : Listing) (k j floor : Nat)
    (step : Step) : Prop where
  safe : Safe c m
  framed : Machine.Framed s.limits m
  known : c.listings[m.func]? = some l
  orderly : l.Orderly c.constants.size c.listings.length c.procedures.size
  found : l.steps[k]? = some step
  place : m.place = l.place k + j
  base_le : m.base ≤ floor
  recent : l.Recent k m.base floor
  held : floor + step.held j ≤ m.top

namespace Amid

theorem small (h : Amid s c m l k j floor step) {a : Address} (window : step.window? = none)
    (mem : a ∈ step.args) (t : Int16) (temp : a.temp? = some t) : l.slot t < numberRange :=
  h.orderly.slot_lt (Listing.known_of_named
    (h.orderly.read k t (Listing.mem_reads h.found window mem t temp)))

theorem small_dest (h : Amid s c m l k j floor step) {t : Int16}
    (writes : l.writes? k = some t) : l.slot t < numberRange :=
  h.orderly.slot_lt (Listing.known_of_named (Listing.named_of_writes writes))

/-- A value is written to the destination of the step, which ends with it or not. -/
theorem assigned (h : Amid s c m l k j floor step) {t : Int16} (writes : l.writes? k = some t)
    {n : Machine} (frames : n.frames = m.frames) (func : n.func = m.func) (base : n.base = m.base)
    (place : n.place = l.place (k + 1)) (top : max floor (m.base + l.slot t + 1) ≤ n.top) :
    Safe c n :=
  h.safe.done h.known frames func base place (Nat.le_trans h.base_le (Nat.le_max_left _ _))
    (h.recent.written writes) top

variable {t : Int16} {a b : Address}

/-- Moving a value into a register of the frame. -/
theorem mov_cases {src : Operand} {slot : Nat} {v : Value} {n n' : Machine}
    (small : slot < numberRange) (loads : Machine.load s src n = .ok v n') :
    Machine.dispatch s (.binary .mov (.register (Int16.ofNat slot)) src) n =
        .ok () (n'.assigned slot v).advanced ∨
      Machine.dispatch s (.binary .mov (.register (Int16.ofNat slot)) src) n =
          .error .registerLimit n' ∧
        n'.registers.size ≤ n'.base + (Int16.ofNat slot).toNatClampNeg := by
  rw [Machine.dispatch_mov loads, Machine.toNatClampNeg_ofNat_of_small small]
  by_cases inside : n'.base + slot < n'.registers.size
  · rw [bind_of_ok (Machine.assign_slot v small inside)]
    exact .inl rfl
  · rw [bind_of_error (Machine.assign_slot_of_le v small (Nat.not_lt.1 inside))]
    exact .inr ⟨rfl, Nat.not_lt.1 inside⟩

theorem copy (linked : Linked s c) (h : Amid s c m l k 0 floor (.unary (.temp t) .nop a))
    (sound : a.Sound c.constants.size) :
    Proceeds s c m (.binary .mov (l.operand (.temp t)) (l.operand a)) := by
  have writes : l.writes? k = some t := Listing.writes?_of_dest h.found rfl
  rcases load_cases linked sound (h.small rfl List.mem_cons_self) m.started with
    ⟨v, loads⟩ | ⟨error, beyond⟩
  · rcases mov_cases (h.small_dest writes) loads with ok | ⟨error, beyond⟩
    · refine .of_ok ok (h.assigned writes rfl rfl rfl ?_ ?_)
      · rw [Listing.place_succ h.found]
        exact congrArg Nat.succ h.place
      · have held : floor ≤ m.top := h.held
        exact Nat.max_le.2 ⟨Nat.le_trans held (Nat.le_max_left _ _), Nat.le_max_right _ _⟩
    · exact .of_error error (.registers (.named (Instruction.operand?_binary_zero _ _ _)) beyond)
  · exact .of_error (Machine.dispatch_mov_error error)
      (.of_operand (Instruction.operand?_binary_one _ _ _) beyond)

/-- The first of the two instructions of a negation to another place. -/
theorem neg_first (linked : Linked s c) (h : Amid s c m l k 0 floor (.unary (.temp t) .neg a))
    (apart : Address.temp t ≠ a) (sound : a.Sound c.constants.size) :
    Proceeds s c m (.binary .mov (l.operand (.temp t)) (l.operand a)) := by
  have writes : l.writes? k = some t := Listing.writes?_of_dest h.found rfl
  have width : (Step.unary (.temp t) .neg a).width = 2 := if_neg apart
  rcases load_cases linked sound (h.small rfl List.mem_cons_self) m.started with
    ⟨v, loads⟩ | ⟨error, beyond⟩
  · rcases mov_cases (h.small_dest writes) loads with ok | ⟨error, beyond⟩
    · refine .of_ok ok (h.safe.next h.known rfl rfl rfl (k := k) (j := 1) ?_ (.inr ⟨_, h.found, ?_⟩)
        h.base_le h.recent ?_)
      · exact congrArg Nat.succ h.place
      · rw [width]
        decide
      · rw [h.found]
        have held : floor ≤ m.top := h.held
        exact Nat.le_trans held (Nat.le_max_left _ _)
    · exact .of_error error (.registers (.named (Instruction.operand?_binary_zero _ _ _)) beyond)
  · exact .of_error (Machine.dispatch_mov_error error)
      (.of_operand (Instruction.operand?_binary_one _ _ _) beyond)

/-- The last instruction of a negation, which negates the destination. -/
theorem neg_last (linked : Linked s c) (h : Amid s c m l k j floor (.unary (.temp t) .neg a))
    (last : (Step.unary (.temp t) .neg a).width = j + 1) :
    Proceeds s c m (.unary .neg (l.operand (.temp t))) := by
  have writes : l.writes? k = some t := Listing.writes?_of_dest h.found rfl
  have small := h.small_dest writes
  rcases load_cases linked (a := .temp t) trivial (fun _ same => by cases same; exact small)
    m.started with
    ⟨v, loads⟩ | ⟨error, beyond⟩
  · have register : (l.operand (.temp t)).mode = .register := rfl
    have dispatched := Machine.dispatch_neg register loads
    cases dud : v.neg.isDud with
    | true =>
        rw [dud, if_pos rfl] at dispatched
        exact .of_error dispatched
          (.negation rfl (Instruction.operand?_unary _ _) loads (v.isDud_neg ▸ dud))
    | false =>
        rw [dud, if_neg Bool.false_ne_true] at dispatched
        by_cases inside : m.started.base + l.slot t < m.started.registers.size
        · have stores := Machine.assign_slot v.neg small inside
          rw [show l.operand (.temp t) = .register (Int16.ofNat (l.slot t)) from rfl] at dispatched ⊢
          rw [bind_of_ok stores] at dispatched
          refine .of_ok dispatched (h.assigned writes rfl rfl rfl ?_ ?_)
          · rw [Listing.place_succ h.found, last]
            exact congrArg Nat.succ h.place
          · have held : floor ≤ m.top := Nat.le_trans (Nat.le_add_right _ _) h.held
            exact Nat.max_le.2 ⟨Nat.le_trans held (Nat.le_max_left _ _), Nat.le_max_right _ _⟩
        · have beyond := Machine.assign_slot_of_le v.neg small (Nat.not_lt.1 inside)
          rw [show l.operand (.temp t) = .register (Int16.ofNat (l.slot t)) from rfl] at dispatched ⊢
          rw [bind_of_error beyond] at dispatched
          refine .of_error dispatched (.registers (.named (Instruction.operand?_unary _ _)) ?_)
          rw [Machine.toNatClampNeg_ofNat_of_small small]
          exact Nat.not_lt.1 inside
  · exact .of_error (Machine.dispatch_neg_error rfl error)
      (.of_operand (Instruction.operand?_unary _ _) beyond)

/-- An operand of an operator is put on top of the frame. -/
theorem push (linked : Linked s c) {op : Op} (h : Amid s c m l k j floor (.binary (.temp t) op a b))
    {x : Address} (mem : x ∈ [a, b]) (sound : x.Sound c.constants.size)
    (first : j < 2) : Proceeds s c m (.unary .push (l.operand x)) := by
  rcases load_cases linked sound (h.small rfl mem) m.started with
    ⟨v, loads⟩ | ⟨error, beyond⟩
  · have dispatched := Machine.dispatch_push loads
    by_cases inside : m.started.top < m.started.registers.size
    · rw [bind_of_ok (Machine.push_of_room v inside)] at dispatched
      refine .of_ok dispatched (h.safe.next h.known rfl rfl rfl (k := k) (j := j + 1) ?_
        (.inr ⟨_, h.found, ?_⟩) h.base_le h.recent ?_)
      · exact congrArg Nat.succ h.place
      · show j + 1 < 4
        omega
      · rw [h.found]
        have held := h.held
        show floor + Step.held _ (j + 1) ≤ m.top + 1
        obtain rfl | rfl : j = 0 ∨ j = 1 := by omega
        · exact Nat.succ_le_succ held
        · exact Nat.succ_le_succ held
    · rw [bind_of_error (Machine.push_of_le v (Nat.not_lt.1 inside))] at dispatched
      exact .of_error dispatched (.registers (.top rfl) (Nat.not_lt.1 inside))
  · exact .of_error (Machine.dispatch_push_error error)
      (.of_operand (Instruction.operand?_unary _ _) beyond)

/-- The operator takes its two operands from the top of the frame. -/
theorem operate {op : BinaryOp} (h : Amid s c m l k 2 floor (.binary (.temp t) (.binary op) a b)) :
    Proceeds s c m (.nonary (.binary op)) := by
  have held : floor + 2 ≤ m.top := h.held
  have base_le := h.base_le
  have top_le := h.framed.seated.top_le
  have room : m.started.base + 2 ≤ m.started.top := by
    show m.base + 2 ≤ m.top
    omega
  obtain ⟨y, right⟩ : ∃ y, m.started.registers[m.started.top - 1]? = some y :=
    ⟨_, Array.getElem?_eq_getElem (show m.top - 1 < m.registers.size by omega)⟩
  obtain ⟨x, left⟩ : ∃ x, m.started.registers[m.started.top - 2]? = some x :=
    ⟨_, Array.getElem?_eq_getElem (show m.top - 2 < m.registers.size by omega)⟩
  have dispatched := @Machine.dispatch_binary s _ op _ _ room left right
  cases outcome : op.outcome x y with
  | ok v =>
      rw [outcome] at dispatched
      refine .of_ok dispatched (h.safe.next h.known rfl rfl rfl (k := k) (j := 3) ?_
        (.inr ⟨_, h.found, show 3 < 4 by decide⟩) h.base_le h.recent ?_)
      · exact congrArg Nat.succ h.place
      · rw [h.found]
        show floor + 1 ≤ m.top - 1
        omega
  | error fault =>
      rw [outcome] at dispatched
      refine .of_error dispatched ?_
      rcases BinaryOp.outcome_error outcome with rfl | rfl
      · exact .operands rfl left right (BinaryOp.not_accepts_of_outcome outcome)
      · exact .divisor rfl right (BinaryOp.isZero_of_outcome outcome)

/-- The result of an operator is moved to its destination. -/
theorem store {op : Op} (h : Amid s c m l k 3 floor (.binary (.temp t) op a b)) :
    Proceeds s c m (.binary .mov (l.operand (.temp t)) .stack) := by
  have writes : l.writes? k = some t := Listing.writes?_of_dest h.found rfl
  have held : floor + 1 ≤ m.top := h.held
  have base_le := h.base_le
  have top_le := h.framed.seated.top_le
  have loads : Machine.load s .stack m.started = .ok _ { m.started with top := m.top - 1 } :=
    Machine.load_stack (show m.base < m.top by omega)
      (Array.getElem?_eq_getElem (show m.top - 1 < m.registers.size by omega))
  rcases mov_cases (h.small_dest writes) loads with ok | ⟨error, beyond⟩
  · refine .of_ok ok (h.assigned writes rfl rfl rfl ?_ ?_)
    · rw [Listing.place_succ h.found]
      exact congrArg Nat.succ h.place
    · show max floor (m.base + l.slot t + 1) ≤ max (m.top - 1) (m.base + l.slot t + 1)
      omega
  · exact .of_error error (.registers (.named (Instruction.operand?_binary_zero _ _ _)) beyond)

/-- The machine behind a step with one instruction that writes nothing. -/
theorem behind (h : Amid s c m l k 0 floor step) (silent : step.dest? = none)
    (single : step.width = 1) {n : Machine} (frames : n.frames = m.frames) (func : n.func = m.func)
    (base : n.base = m.base) (place : n.place = m.place + 1) (top : n.top = m.top) : Safe c n := by
  have writes : l.writes? k = none := by
    rw [Listing.writes?, h.found]
    exact congrArg (Option.map Address.id) silent
  refine h.safe.done h.known frames func base ?_ h.base_le (h.recent.silent writes) ?_
  · rw [place, Listing.place_succ h.found, single, h.place]
  · rw [top]
    exact Nat.le_trans (Nat.le_add_right _ _) h.held

theorem nop (h : Amid s c m l k 0 floor (.act .nop)) : Proceeds s c m (.nonary .nop) :=
  .of_ok (Machine.dispatch_nop _) (h.behind rfl rfl rfl rfl rfl rfl rfl)

/-- The machine where the jump at hand lands. -/
theorem landed (linked : Linked s c) (h : Amid s c m l k 0 floor step)
    (isJump : step.marker.IsJump) :
    ∃ place, l.target k = .immediate (Int16.ofNat place) ∧ place < numberRange ∧
      ∀ n : Machine, n.frames = m.frames → n.func = m.func → n.base = m.base → n.place = place →
        n.top = m.top → Safe c n := by
  obtain ⟨chunk, -, assembled⟩ := linked.assembled _ l h.known
  obtain ⟨landing, place, landed, target, rfl, small, -⟩ :=
    assembled.target_eq h.orderly h.found isJump
  refine ⟨_, target, small, fun n frames func base at_ top => ?_⟩
  have nop := (h.orderly.landing_spec landed).2
  refine h.safe.done h.known frames func base at_ h.base_le (.landed nop) ?_
  rw [top]
  exact Nat.le_trans (Nat.le_add_right _ _) h.held

theorem jump (linked : Linked s c) (h : Amid s c m l k 0 floor (.actOn .jump (.immediate 0))) :
    Proceeds s c m (.unary .jump (l.target k)) := by
  obtain ⟨place, target, small, safe⟩ := h.landed linked (.inl rfl)
  rw [target]
  refine .of_ok (Machine.dispatch_jump (Machine.zero_le_ofNat_of_small small) _) ?_
  exact safe _ rfl rfl rfl (Machine.toNatClampNeg_ofNat_of_small small) rfl

theorem jumpElse (linked : Linked s c)
    (h : Amid s c m l k 0 floor (.actOnTwo .jumpElse a (.immediate 0)))
    (sound : a.Sound c.constants.size) :
    Proceeds s c m (.binary .jumpElse (l.operand a) (l.target k)) := by
  obtain ⟨place, target, small, safe⟩ := h.landed linked (.inr rfl)
  rcases load_cases linked sound (h.small rfl List.mem_cons_self) m.started with
    ⟨v, loads⟩ | ⟨error, beyond⟩
  · have dispatched :=
      Machine.dispatch_jumpElse (Machine.zero_le_ofNat_of_small small) loads
    rw [← target] at dispatched
    cases truth : v.truthy? with
    | none =>
        rw [truth] at dispatched
        exact .of_error dispatched
          (.condition rfl (Instruction.operand?_binary_zero _ _ _) loads
            (Value.isOpaque_of_truthy? truth))
    | some truth' =>
        rw [truth] at dispatched
        cases truth' with
        | true => exact .of_ok dispatched (h.behind rfl rfl rfl rfl rfl rfl rfl)
        | false =>
            exact .of_ok dispatched
              (safe _ rfl rfl rfl (Machine.toNatClampNeg_ofNat_of_small small) rfl)
  · exact .of_error (Machine.dispatch_jumpElse_error error)
      (.of_operand (Instruction.operand?_binary_zero _ _ _) beyond)

/-- A return leads back to a suspended frame, or to the host. -/
theorem ret (linked : Linked s c) (h : Amid s c m l k 0 floor (.actOn .ret a))
    (sound : a.Sound c.constants.size) : Proceeds s c m (.unary .ret (l.operand a)) := by
  rcases load_cases linked sound (h.small rfl List.mem_cons_self) m.started with
    ⟨v, loads⟩ | ⟨error, beyond⟩
  · have dispatched := Machine.dispatch_ret_of_load loads
    have framed : Machine.Framed s.limits m.started := h.framed.congr rfl rfl rfl rfl rfl
    obtain ⟨host, rest, stack, suspended⟩ := h.safe.stacked
    have opened : m.frames ≠ #[] := by
      rintro none
      rw [none] at stack
      cases stack
    obtain ⟨frames, frame, saved, flag, frames_eq, operands_eq⟩ := framed.split opened
    by_cases inside : m.started.base < m.started.registers.size
    · rw [Machine.ret_of_lt v inside frames_eq operands_eq] at dispatched
      rw [Proceeds, dispatched]
      intro running
      have popped : (m.started.returned v frame saved flag inside).frames = frames := by
        rw [Machine.returned, frames_eq, Array.pop_push]
      have whole : frames.toList ++ [frame] = host :: rest := by
        rw [← stack, show m.frames = frames.push frame from frames_eq, Array.toList_push]
      obtain ⟨first, rest', inner⟩ : ∃ first rest', frames.toList = first :: rest' := by
        cases inner : frames.toList with
        | nil =>
            have none : frames = #[] := Array.toList_eq_nil_iff.1 inner
            have opened := (Machine.isRunning_iff.1 running).2.1
            rw [popped] at opened
            exact absurd none opened
        | cons first rest' => exact ⟨first, rest', rfl⟩
      rw [inner, List.cons_append, List.cons.injEq] at whole
      obtain ⟨rfl, rfl⟩ := whole
      have suspended' := suspended frame (List.mem_append_right _ (List.mem_singleton_self _))
      obtain ⟨l', k', known, place, base_le, recent⟩ := suspended'
      refine ⟨⟨l', k', 0, .front known place base_le recent (Nat.le_refl frame.top)⟩,
        first, rest', ?_, fun frame mem => suspended frame (List.mem_append_left _ mem)⟩
      rw [popped, inner]
    · rw [Machine.ret_of_le v (Nat.not_lt.1 inside)] at dispatched
      exact .of_error dispatched (.registers (.first rfl) (Nat.not_lt.1 inside))
  · exact .of_error (Machine.dispatch_ret_error error)
      (.of_operand (Instruction.operand?_unary _ _) beyond)

variable {func count : Int16}

/-- A call opens a frame for the values of its window. -/
theorem call (linked : Linked s c)
    (h : Amid s c m l k 0 floor (.actOnTwo .call (.immediate func) (.immediate count)))
    (named : 0 ≤ func) (known : func.toNatClampNeg < c.listings.length) (some : 0 < count) :
    Proceeds s c m (.binary .call (.immediate func) (.immediate count)) := by
  have dispatched := Machine.dispatch_call_immediate (s := s) named (Int16.le_of_lt some) m.started
  have window := h.orderly.window k _ _ h.found rfl
  have room := h.recent.window h.found rfl window
  have held : floor ≤ m.top := h.held
  by_cases depth : m.frames.size < s.limits.depth
  · by_cases specials : m.operands.size + 2 ≤ s.limits.operands
    · have callable : Machine.Callable s func.toNatClampNeg count.toNatClampNeg m.started := by
        refine ⟨linked.size ▸ known, depth, ?_, specials⟩
        show count.toNatClampNeg ≤ m.top - m.base
        omega
      rw [Machine.call_of_callable callable] at dispatched
      refine .of_ok dispatched ⟨⟨c.listings[func.toNatClampNeg], 0, 0, .front
        (List.getElem?_eq_getElem known) rfl (Nat.sub_le _ _) (.zero _ _ _) (Nat.le_refl m.top)⟩, ?_⟩
      · obtain ⟨host, rest, stack, suspended⟩ := h.safe.stacked
        refine ⟨host, rest ++ [⟨m.func, m.place + 1, m.base, m.top⟩], ?_, fun frame mem => ?_⟩
        · show (m.frames.push _).toList = _
          rw [Array.toList_push, stack]
          rfl
        · rcases List.mem_append.1 mem with mem | mem
          · exact suspended frame mem
          · obtain rfl := List.mem_singleton.1 mem
            have writes : l.writes? k = none := by rw [Listing.writes?, h.found]; rfl
            refine ⟨l, k + 1, h.known, ?_, Nat.le_trans h.base_le held,
              (h.recent.silent writes).mono held⟩
            rw [Listing.place_succ h.found]
            exact congrArg Nat.succ h.place
    · have full := Nat.not_le.1 specials
      have fails := Machine.call_of_full_operands (m := m.started) (linked.size ▸ known) depth
        (show count.toNatClampNeg ≤ m.top - m.base by omega) full
      exact .of_error (dispatched.trans fails) (.specials rfl full)
  · have fails := @Machine.call_of_full_frames s m.started _ count.toNatClampNeg
      (linked.size ▸ known) depth
    exact .of_error (dispatched.trans fails) (.depth rfl (Nat.not_lt.1 depth))

/-- A procedure works on the values of its window. -/
theorem nativeCall (linked : Linked s c)
    (objects : ∀ p ∈ s.procedures, p.Objects)
    (h : Amid s c m l k 0 floor (.actOnTwo .nativeCall (.immediate func) (.immediate count)))
    (named : 0 ≤ func) (known : func.toNatClampNeg < c.procedures.size) (some : 0 < count) :
    Proceeds s c m (.binary .nativeCall (.immediate func) (.immediate count)) := by
  have window := h.orderly.window k _ _ h.found rfl
  have room := h.recent.window h.found rfl window
  have positive := window.positive
  have held : floor ≤ m.top := h.held
  obtain ⟨p, found⟩ : ∃ p, s.procedures[func.toNatClampNeg]? = Option.some p :=
    ⟨_, Array.getElem?_eq_getElem (linked.procedures ▸ known)⟩
  have mem := Array.mem_of_getElem? found
  have dispatched :=
    Machine.dispatch_nativeCall (s := s) named (Int16.le_of_lt some) found m.started
  have small : count.toNatClampNeg < UInt16.size := Nat.lt_trans count.toNatClampNeg_lt (by decide)
  have number : (UInt16.ofNat count.toNatClampNeg).toNat = count.toNatClampNeg :=
    UInt16.toNat_ofNat_of_lt small
  have seats : m.started.Seats (UInt16.ofNat count.toNatClampNeg) := by
    refine ⟨fun zero => ?_, ?_, h.framed.seated.top_le⟩
    · rw [zero] at number
      exact absurd number (Nat.ne_of_lt positive)
    · rw [number]
      exact Nat.le_trans room held
  cases run : p.run (UInt16.ofNat count.toNatClampNeg) m.started with
  | ok u n =>
      rw [bind_of_ok run] at dispatched
      have same := ((linked.lawful p mem).confined _).ok run |>.same
      have frames : n.frames = m.frames := by rw [same]; rfl
      have func : n.func = m.func := by rw [same]; rfl
      have base : n.base = m.base := by rw [same]; rfl
      have place : n.place = m.place := by rw [same]; rfl
      have top : n.top = m.top := by rw [same]; rfl
      exact .of_ok dispatched (h.behind rfl rfl frames func base (congrArg Nat.succ place) top)
  | error fault n =>
      rw [bind_of_error run] at dispatched
      exact .of_error dispatched
        (.own rfl (Machine.requested_immediate named (Int16.le_of_lt some) found m.started)
          (objects p mem _ _ seats fault n run))

/-- Every instruction of a step proceeds. -/
theorem proceeds (linked : Linked s c)
    (objects : ∀ p ∈ s.procedures, p.Objects)
    (h : Amid s c m l k j floor step) (code : (l.code k step)[j]? = some i) :
    Proceeds s c m i := by
  have single {x : Instruction} (code : [x][j]? = some i) : j = 0 ∧ x = i := by
    rw [List.getElem?_singleton] at code
    split at code
    · exact ⟨‹_›, Option.some.inj code⟩
    · cases code
  cases h.orderly.legal k step h.found with
  | copy t sound =>
      obtain ⟨rfl, rfl⟩ := single code
      exact h.copy linked sound
  | @neg t a sound =>
      by_cases same : Address.temp t = a
      · rw [Listing.code, if_pos same] at code
        obtain ⟨rfl, rfl⟩ := single code
        exact h.neg_last linked (if_pos same)
      · rw [Listing.code, if_neg same] at code
        rcases j with _ | _ | j
        · cases code
          exact h.neg_first linked same sound
        · cases code
          exact h.neg_last linked (if_neg same)
        · cases code
  | binary t op sound sound' =>
      rcases j with _ | _ | _ | _ | j
      · cases code
        exact h.push linked List.mem_cons_self sound (by decide)
      · cases code
        exact h.push linked (List.mem_cons_of_mem _ List.mem_cons_self) sound' (by decide)
      · cases code
        exact h.operate
      · cases code
        exact h.store
      · cases code
  | nop =>
      obtain ⟨rfl, rfl⟩ := single code
      exact h.nop
  | jump =>
      obtain ⟨rfl, rfl⟩ := single code
      exact h.jump linked
  | ret sound =>
      obtain ⟨rfl, rfl⟩ := single code
      exact h.ret linked sound
  | jumpElse sound =>
      obtain ⟨rfl, rfl⟩ := single code
      exact h.jumpElse linked sound
  | call named known some =>
      obtain ⟨rfl, rfl⟩ := single code
      exact h.call linked named known some
  | nativeCall named known some =>
      obtain ⟨rfl, rfl⟩ := single code
      exact h.nativeCall linked objects named known some
  | savePatch => cases code
  | shufflePatch => cases code
  | patchJump => cases code
  | patchJumpElse => cases code
  | condensed => cases code

end Amid

end

/-! ### Runs -/

namespace Machine

variable {s : Setting} {c : Chart} {m : Machine}

/-- The statuses that compiled code fails with. -/
theorem Cause.status {i? : Option Instruction} {fault : Fault} (h : m.Cause s i? fault) :
    fault.status = .argError ∨ fault.status = .memError ∨ fault.status = .anyError ∨
      fault.status = .mathError := by
  cases h with
  | own is requests objection =>
      rcases objection.status with arg | mem | any
      · exact .inl arg
      · exact .inr (.inl mem)
      · exact .inr (.inr (.inl any))
  | operands | negation | condition => exact .inl rfl
  | divisor => exact .inr (.inr (.inr rfl))
  | _ => exact .inr (.inl rfl)

/-- The second machine is on the run from the first. -/
def Passes (s : Setting) (m n : Machine) : Prop := ∃ k, m.follow s k = n

/-- How a machine on the run from another gets its status: nothing has gone wrong, the steps
allowed are used up, or an instruction has failed for a reason. -/
inductive Verdict (s : Setting) (m : Machine) : Status → Prop where
  | ok : Verdict s m .ok
  | steps {limit : Nat} (limited : s.limits.steps = some limit) : Verdict s m .anyError
  | failed {n n' : Machine} {fault : Fault} (passes : m.Passes s n)
    (fails : n.attempt s = .failed fault n')
    (cause : n.Cause s (s.program.fetch? n.func n.place) fault) : Verdict s m fault.status

theorem Passes.head {n n' : Machine} (moved : m.step s = (true, n)) (h : n.Passes s n') :
    m.Passes s n' := by
  obtain ⟨k, follow⟩ := h
  refine ⟨k + 1, ?_⟩
  rw [Machine.follow, moved]
  exact follow

theorem Verdict.head {n : Machine} {status : Status} (moved : m.step s = (true, n))
    (h : n.Verdict s status) : m.Verdict s status := by
  cases h with
  | ok => exact .ok
  | steps limited => exact .steps limited
  | failed passes fails cause => exact .failed (passes.head moved) fails cause

/-- What a verdict can not be. -/
theorem Verdict.status {status : Status} (h : m.Verdict s status) :
    status ≠ .opError ∧ status ≠ .entryError := by
  cases h with
  | ok => exact ⟨nofun, nofun⟩
  | steps => exact ⟨nofun, nofun⟩
  | failed passes fails cause =>
      rcases cause.status with status | status | status | status
      all_goals
        rw [status]
        exact ⟨nofun, nofun⟩

/-- A machine on a run of compiled code. -/
structure Proper (s : Setting) (c : Chart) (m : Machine) : Prop where
  framed : Framed s.limits m
  safe : m.isRunning = true → Safe c m

/-- A step of compiled code leads to a proper machine, or fails for a reason. -/
theorem Proper.attempt (linked : Linked s c)
    (objects : ∀ p ∈ s.procedures, p.Objects) (h : Proper s c m) :
    match m.attempt s with
    | .done n => n.status = .ok ∧ (n.isRunning = true → Safe c n)
    | .failed fault _ => m.Cause s (s.program.fetch? m.func m.place) fault
    | _ => True := by
  have started : Framed s.limits m.started := h.framed.congr rfl rfl rfl rfl rfl
  have proceeds (running : m.isRunning = true) {i : Instruction}
      (fetched : s.program.fetch? m.func m.place = some i) : Proceeds s c m i := by
    have safe := h.safe running
    obtain ⟨l, k, j, sited⟩ := safe.sited
    obtain ⟨k', step, j', found, code, place, floor, base_le, recent, held⟩ :=
      sited.fetch linked fetched
    have orderly := linked.orderly l (List.mem_of_getElem? sited.known)
    have amid : Amid s c m l k' j' floor step :=
      ⟨safe, h.framed, sited.known, orderly, found, place, base_le, recent, held⟩
    exact amid.proceeds linked objects code
  have attempted := m.attempted s
  generalize m.attempt s = outcome at attempted
  cases attempted with
  | ended | exhausted => trivial
  | lost running below none => exact none ▸ .endOfCode
  | @done i n running below fetched ok =>
      obtain ⟨-, opened, status⟩ := isRunning_iff.1 running
      have proceeds := proceeds running fetched
      rw [Proceeds, show dispatch s i m.started = .ok () n from ok] at proceeds
      exact ⟨dispatch_status (fun p mem => (linked.lawful p mem).confined) started status opened ok,
        proceeds⟩
  | @failed i fault n running below fetched error =>
      have proceeds := proceeds running fetched
      rw [Proceeds, show dispatch s i m.started = .error fault n from error] at proceeds
      exact fetched ▸ proceeds

theorem Proper.step (linked : Linked s c)
    (objects : ∀ p ∈ s.procedures, p.Objects) (h : Proper s c m) :
    Proper s c (m.step s).2 := by
  refine ⟨step_framed (fun p mem => (linked.lawful p mem).confined) h.framed, ?_⟩
  have attempt := h.attempt linked objects
  have attempted := m.attempted s
  rw [Machine.step]
  generalize m.attempt s = outcome at attempt attempted
  cases attempted with
  | ended stopped => exact h.safe
  | exhausted =>
      intro running
      have ok : Status.anyError = .ok := (isRunning_iff.1 running).2.2
      cases ok
  | lost =>
      intro running
      have ok : Status.memError = .ok := (isRunning_iff.1 running).2.2
      cases ok
  | done => exact attempt.2
  | @failed i fault n =>
      intro running
      have ok : fault.status = .ok := (isRunning_iff.1 running).2.2
      rcases attempt.status with status | status | status | status
      all_goals
        rw [ok] at status
        cases status

/-- The whole run from a proper machine consists of proper machines. -/
theorem Proper.passes (linked : Linked s c)
    (objects : ∀ p ∈ s.procedures, p.Objects) (h : Proper s c m)
    {n : Machine} (passes : m.Passes s n) : Proper s c n := by
  obtain ⟨k, rfl⟩ := passes
  induction k generalizing m with
  | zero => exact h
  | succ k ih =>
      have next := h.step linked objects
      rw [follow]
      cases moved : m.step s with
      | mk more n =>
          rw [moved] at next
          cases more with
          | true => exact ih next
          | false => exact next

/-- Where a status on the run from a proper machine comes from. -/
theorem Proper.verdict (linked : Linked s c)
    (objects : ∀ p ∈ s.procedures, p.Objects) (h : Proper s c m)
    (status : m.status = .ok) {n : Machine} (passes : m.Passes s n) : m.Verdict s n.status := by
  obtain ⟨k, rfl⟩ := passes
  induction k generalizing m with
  | zero => exact status ▸ .ok
  | succ k ih =>
      have attempt := h.attempt linked objects
      have next := h.step linked objects
      have attempted := m.attempted s
      rw [follow]
      cases outcome : m.attempt s with
      | ended n =>
          rw [outcome] at attempted
          cases attempted
          rw [Machine.step, outcome]
          exact status ▸ .ok
      | exhausted limit n =>
          rw [outcome] at attempted
          cases attempted with
          | exhausted reached =>
              rw [Machine.step, outcome]
              exact .steps (Option.filter_eq_some_iff.1 reached).1
      | done n =>
          rw [outcome] at attempt
          have moved : m.step s = (n.isRunning, n) := by rw [Machine.step, outcome]; rfl
          rw [moved] at next ⊢
          cases running : n.isRunning with
          | true => exact (ih next attempt.1).head (moved.trans (by rw [running]))
          | false => exact attempt.1 ▸ .ok
      | failed fault n =>
          rw [outcome] at attempt
          rw [Machine.step, outcome]
          exact .failed ⟨0, rfl⟩ outcome attempt

/-- A run starts with a proper machine. -/
theorem Proper.begin (linked : Linked s c) (m : Machine) : Proper s c (m.begin s) := by
  refine ⟨begin_framed s m, fun running => ?_⟩
  cases entry : s.program.entry? with
  | none =>
      rw [begin_of_none m entry] at running
      cases running
  | some func =>
      by_cases room : 2 ≤ s.limits.operands
      · have known : func < c.listings.length := by
          rw [Program.entry?, Option.filter_eq_some_iff] at entry
          rw [← linked.size]
          exact of_decide_eq_true entry.2
        rw [begin_of_le m entry room]
        exact ⟨⟨c.listings[func], 0, 0, .front (List.getElem?_eq_getElem known) rfl
          (Nat.le_refl 0) (.zero _ _ _) (Nat.le_refl 0)⟩, _, [], rfl, fun frame mem => by cases mem⟩
      · rw [begin_of_lt m entry (Nat.not_le.1 room)] at running
        cases running

end Machine

end RegisterCode
