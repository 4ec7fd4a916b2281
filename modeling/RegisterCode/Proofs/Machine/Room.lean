import RegisterCode.Proofs.Machine.Perform

/-!
Machines with more registers. What an action does in a machine it does also in one whose
register file is longer, unless it fails for a place that the shorter file does not have
(`Extends`). The two actions compared need not be the same: the second may be one that is
stopped later, as a call is under a higher limit. So each instruction extends itself when
the limits are raised (`dispatch_extends`).
-/

namespace RegisterCode

/-- Limits of which none is below those of `c`. No limit on the steps is the highest. -/
structure Limits.Le (c c' : Limits) : Prop where
  registers : c.registers ≤ c'.registers
  operands : c.operands ≤ c'.operands
  depth : c.depth ≤ c'.depth
  steps : ∀ n', c'.steps = some n' → ∃ n, c.steps = some n ∧ n ≤ n'

instance : LE Limits := ⟨Limits.Le⟩

/-- The same setting under other limits. -/
def Setting.under (s : Setting) (limits : Limits) : Setting := { s with limits := limits }

namespace Machine

/-- The machine with so many more registers, which are dud. -/
def extended (m : Machine) (more : Nat) : Machine :=
  { m with registers := m.registers ++ Array.replicate more .dud }

variable {more : Nat} {α β : Type}

/-- What the first action does in a machine, the second does in the extended one, unless the
first fails with the status that says a place is missing. -/
def ExtendsAt (more : Nat) (a a' : Action α) (m : Machine) : Prop :=
  match a m with
  | .ok x n => a' (m.extended more) = .ok x (n.extended more)
  | .error fault n =>
    fault.status = .memError ∨ a' (m.extended more) = .error fault (n.extended more)

namespace ExtendsAt

variable {a a' : Action α} {m n : Machine}

theorem ok (h : ExtendsAt more a a' m) {x : α} (run : a m = .ok x n) :
    a' (m.extended more) = .ok x (n.extended more) := by
  rw [ExtendsAt, run] at h
  exact h

theorem error (h : ExtendsAt more a a' m) {fault : Fault} (run : a m = .error fault n) :
    fault.status = .memError ∨ a' (m.extended more) = .error fault (n.extended more) := by
  rw [ExtendsAt, run] at h
  exact h

end ExtendsAt

/-- The second action extends the first in all machines. -/
def Extends (more : Nat) (a a' : Action α) : Prop := ∀ m, ExtendsAt more a a' m

namespace Extends

theorem pure (x : α) : Extends more (pure x) (pure x) := by
  intro m
  rfl

theorem throw (fault : Fault) : Extends more (throw fault : Action α) (throw fault) := by
  intro m
  exact .inr rfl

/-- What follows an action needs to be compared only where the action leads to. -/
theorem bind_of_ok {a a' : Action α} {f f' : α → Action β} (ha : Extends more a a')
    (hf : ∀ x m n, a m = .ok x n → ExtendsAt more (f x) (f' x) n) :
    Extends more (a >>= f) (a' >>= f') := by
  intro m
  rw [ExtendsAt]
  cases run : a m with
  | ok x n =>
      rw [RegisterCode.bind_of_ok run, RegisterCode.bind_of_ok ((ha m).ok run)]
      exact hf x m n run
  | error fault n =>
      rw [bind_of_error run]
      rcases (ha m).error run with missing | same
      · exact .inl missing
      · rw [bind_of_error same]
        exact .inr rfl

theorem bind {a a' : Action α} {f f' : α → Action β} (ha : Extends more a a')
    (hf : ∀ x, Extends more (f x) (f' x)) : Extends more (a >>= f) (a' >>= f') :=
  ha.bind_of_ok fun x _ n _ => hf x n

/-- Looking at the machine first. -/
theorem get_bind {f f' : Machine → Action α}
    (h : ∀ m, Extends more (f m) (f' (m.extended more))) :
    Extends more (get >>= f) (get >>= f') := by
  intro m
  exact h m m

/-- A change that the registers have no part in. -/
theorem modify {f : Machine → Machine}
    (h : ∀ m, f (m.extended more) = (f m).extended more) :
    Extends more (modify f : Action PUnit) (modify f) := by
  intro m
  exact congrArg (EStateM.Result.ok PUnit.unit) (h m)

theorem need (fault : Fault) (x : Option α) :
    Extends more (need fault x) (need fault x) := by
  cases x with
  | none => exact .throw fault
  | some x => exact .pure x

theorem require (fault : Fault) (condition : Bool) :
    Extends more (require condition fault) (require condition fault) := by
  cases condition with
  | false => exact .throw fault
  | true => exact .pure ()

/-- A condition that may hold more often. -/
theorem require_of_imp {fault : Fault} (missing : fault.status = .memError)
    {condition condition' : Bool} (imp : condition = true → condition' = true) :
    Extends more (Machine.require condition fault) (Machine.require condition' fault) := by
  cases condition with
  | false =>
      intro m
      exact .inl missing
  | true =>
      rw [imp rfl]
      exact .pure ()

/-- A change of the world and of nothing else. -/
theorem change {a : Action α} (f : World → α × World)
    (same : ∀ m, a m = .ok (f m.world).1 (m.withWorld (f m.world).2)) : Extends more a a := by
  intro m
  rw [ExtendsAt, same m, same (m.extended more)]
  rfl

end Extends

/-! ### Registers -/

theorem read_extends (index : Nat) : Extends more (read index) (read index) := by
  refine .get_bind fun m => ?_
  by_cases inside : index < m.registers.size
  · have same : (m.extended more).registers[index]? = m.registers[index]? :=
      Array.getElem?_append_left inside
    rw [same]
    exact .need _ _
  · rw [Array.getElem?_eq_none (Nat.not_lt.1 inside)]
    intro n
    exact .inl rfl

theorem write_extends (index : Nat) (v : Value) :
    Extends more (write index v) (write index v) := by
  intro m
  rw [ExtendsAt]
  by_cases inside : index < m.registers.size
  · have inside' : index < (m.extended more).registers.size := by
      rw [extended, Array.size_append]
      exact Nat.lt_add_right _ inside
    rw [write_of_lt v inside, write_of_lt v inside']
    simp only [extended, Array.set_append_left inside]
  · rw [write_of_le v (Nat.not_lt.1 inside)]
    exact .inl rfl

theorem push_extends (v : Value) : Extends more (push v) (push v) := by
  refine .get_bind fun m => ?_
  exact .bind (write_extends _ _) fun _ => .modify fun _ => rfl

theorem pop_extends : Extends more pop pop := by
  intro m
  by_cases some : m.base < m.top
  · have takes : ExtendsAt more (read (m.top - 1)) (read (m.top - 1))
        { m with top := m.top - 1 } := read_extends _ _
    rw [ExtendsAt] at takes ⊢
    rw [pop_of_lt some, pop_of_lt (m := m.extended more) some]
    exact takes
  · rw [ExtendsAt, pop_of_le (Nat.not_lt.1 some)]
    exact .inl rfl

theorem slot_extends (offset : Int16) : Extends more (slot offset) (slot offset) := by
  unfold slot
  split
  · exact .throw _
  · exact .get_bind fun m => .pure _

theorem assign_extends (x : Operand) (v : Value) : Extends more (assign x v) (assign x v) := by
  refine .bind (.require _ _) fun _ => ?_
  refine .bind (slot_extends _) fun index => ?_
  exact .bind (write_extends index v) fun _ => .modify fun _ => rfl

theorem binary_extends (op : BinaryOp) : Extends more (binary op) (binary op) := by
  refine .bind pop_extends fun right => ?_
  refine .bind pop_extends fun left => ?_
  dsimp only
  split
  · split
    · exact .throw _
    · exact .throw _
  · exact .bind (.modify fun _ => rfl) fun _ => push_extends _
  · exact push_extends _

theorem advance_extends : Extends more advance advance := .modify fun _ => rfl

theorem goTo_extends (place : Nat) : Extends more (goTo place) (goTo place) :=
  .modify fun _ => rfl

/-! ### Operands -/

section Operands

variable (s : Setting) (c' : Limits) (i : Instruction)

theorem operand_extends (slot : Nat) : Extends more (operand i slot) (operand i slot) :=
  .need _ _

theorem load_extends (x : Operand) : Extends more (load s x) (load (s.under c') x) := by
  unfold load
  cases x.mode with
  | immediate => exact .pure _
  | constant =>
      dsimp only
      split
      · exact .throw _
      · exact .need _ _
  | register => exact .bind (slot_extends _) fun index => read_extends index
  | stack => exact pop_extends
  | object =>
      dsimp only
      split
      · exact .throw _
      · exact .pure _

theorem count_extends (x : Operand) : Extends more (count s x) (count (s.under c') x) := by
  refine .bind (load_extends s c' x) fun v => ?_
  split
  · split
    · exact .throw _
    · exact .pure _
  · exact .throw _

theorem jumpTarget_extends (x : Operand) :
    Extends more (jumpTarget s x) (jumpTarget (s.under c') x) :=
  .bind (.require _ _) fun _ => count_extends s c' x

theorem jumpWhen_extends (taken : Bool) :
    Extends more (jumpWhen s i taken) (jumpWhen (s.under c') i taken) := by
  refine .bind (operand_extends i 0) fun x => ?_
  refine .bind (load_extends s c' x) fun v => ?_
  refine .bind (.need _ _) fun cond => ?_
  refine .bind (operand_extends i 1) fun y => ?_
  refine .bind (jumpTarget_extends s c' y) fun target => ?_
  refine .bind (.modify fun _ => rfl) fun _ => ?_
  split
  · exact goTo_extends target
  · exact advance_extends

theorem requested_extends : Extends more (requested s i) (requested (s.under c') i) := by
  refine .bind (operand_extends i 0) fun x => ?_
  refine .bind (count_extends s c' x) fun id => ?_
  refine .bind (operand_extends i 1) fun y => ?_
  refine .bind (count_extends s c' y) fun argc => ?_
  refine .bind (.need _ _) fun procedure => ?_
  exact .bind (.require _ _) fun _ => .pure _

end Operands

/-! ### Calls and returns -/

theorem saveSpecials_extends {c c' : Limits} (le : c.operands ≤ c'.operands) :
    Extends more (saveSpecials c) (saveSpecials c') := by
  intro m
  rw [ExtendsAt, saveSpecials, saveSpecials]
  by_cases full : c.operands < m.operands.size + 2
  · rw [if_pos full]
    exact .inl rfl
  · have room : ¬ c'.operands < (m.extended more).operands.size + 2 :=
      Nat.not_lt.2 (Nat.le_trans (Nat.not_lt.1 full) le)
    rw [if_neg full, if_neg room]
    rfl

theorem restoreSpecials_extends : Extends more restoreSpecials restoreSpecials := by
  refine .get_bind fun m => .bind (.need _ _) fun flag => ?_
  refine .bind (.modify fun _ => rfl) fun _ => ?_
  refine .get_bind fun m => .bind (.need _ _) fun status => ?_
  exact .modify fun _ => rfl

theorem call_extends {s : Setting} {c' : Limits} (le : s.limits ≤ c') (func argc : Nat) :
    Extends more (call s func argc) (call (s.under c') func argc) := by
  refine .bind (.require _ _) fun _ => ?_
  refine .get_bind fun m => ?_
  refine .bind (.require_of_imp rfl ?_) fun _ => ?_
  · intro below
    exact decide_eq_true (Nat.lt_of_lt_of_le (of_decide_eq_true below) le.depth)
  refine .bind (.require _ _) fun _ => ?_
  refine .bind (saveSpecials_extends le.operands) fun _ => ?_
  exact .modify fun _ => rfl

theorem ret_extends (v : Value) : Extends more (ret v) (ret v) := by
  refine .get_bind fun m => .bind (write_extends _ v) fun _ => ?_
  refine .get_bind fun m => .bind (.need _ _) fun frame => ?_
  exact .bind (.modify fun _ => rfl) fun _ => restoreSpecials_extends

/-! ### Procedures -/

section Procedures

variable (count : UInt16)

theorem firstArgument_extends : Extends more (firstArgument count) (firstArgument count) := by
  refine .get_bind fun m => ?_
  have same : (m.extended more).top = m.top ∧ (m.extended more).base = m.base := ⟨rfl, rfl⟩
  rw [same.1, same.2]
  split
  · exact .throw _
  · exact .pure _

theorem argument_extends (index : UInt16) :
    Extends more (argument count index) (argument count index) := by
  refine .bind (.require _ _) fun _ => ?_
  exact .bind (firstArgument_extends count) fun first => read_extends _

theorem answer_extends (v : Value) : Extends more (answer v count) (answer v count) := by
  refine .bind (.require _ _) fun _ => ?_
  exact .bind (firstArgument_extends count) fun first => write_extends _ v

theorem arguments_extends : Extends more (arguments count) (arguments count) := by
  have go (n : Nat) (vs : Array Value) :
      Extends more (arguments.go count n vs) (arguments.go count n vs) := by
    induction n generalizing vs with
    | zero => exact .pure _
    | succ n ih => exact .bind (argument_extends count _) fun v => ih (vs.push v)
  exact go _ _

theorem reference_extends (index : UInt16) :
    Extends more (reference count index) (reference count index) := by
  refine .bind (argument_extends count index) fun v => ?_
  split
  · exact .pure _
  · exact .throw _

end Procedures

theorem sequence_extends (id : ObjectId) : Extends more (sequence id) (sequence id) :=
  .get_bind fun _ => .need _ _

theorem lengthValue_extends (n : Nat) : Extends more (lengthValue n) (lengthValue n) :=
  .bind (.require _ _) fun _ => .pure _

theorem putSequence_extends (id : ObjectId) (s : Sequence) :
    Extends more (putSequence id s) (putSequence id s) :=
  .modify fun _ => rfl

theorem writeLine_extends (line : String) : Extends more (writeLine line) (writeLine line) :=
  .modify fun _ => rfl

theorem createSequence_extends (s : Sequence) :
    Extends more (createSequence s) (createSequence s) := by
  intro m
  rw [ExtendsAt]
  unfold createSequence
  have same : (m.extended more).store = m.store := rfl
  rw [same]
  cases m.store.create? s with
  | none => exact .inl rfl
  | some made => rfl

theorem readLine_extends : Extends more readLine readLine := by
  intro m
  rw [ExtendsAt]
  unfold readLine
  have same : (m.extended more).input = m.input := rfl
  rw [same]
  dsimp only
  cases String.fromUTF8? ⟨(m.input.takeWhile (· ≠ 10)).toArray⟩ with
  | none => exact .inr rfl
  | some text => rfl

end Machine

namespace Procedure

open Machine

variable (more : Nat) (count : UInt16)

theorem print_extends : Extends more (print.run count) (print.run count) := by
  refine .bind (argument_extends count 0) fun v => ?_
  split
  · refine .get_bind fun m => ?_
    have same : (m.extended more).store = m.store := rfl
    rw [same]
    split
    · exact writeLine_extends _
    · exact writeLine_extends _
  · exact writeLine_extends _

theorem promptInt_extends : Extends more (promptInt.run count) (promptInt.run count) :=
  .bind readLine_extends fun _ => answer_extends count _

theorem promptFloat_extends : Extends more (promptFloat.run count) (promptFloat.run count) :=
  .bind readLine_extends fun _ => answer_extends count _

theorem lenOf_extends : Extends more (lenOf.run count) (lenOf.run count) := by
  refine .bind (reference_extends count 0) fun id => ?_
  refine .bind (sequence_extends id) fun s => ?_
  exact .bind (lengthValue_extends _) fun v => answer_extends count v

theorem makeList_extends : Extends more (makeList.run count) (makeList.run count) :=
  .bind (createSequence_extends _) fun v => answer_extends count v

theorem makeTuple_extends : Extends more (makeTuple.run count) (makeTuple.run count) := by
  refine .bind (arguments_extends count) fun items => ?_
  exact .bind (createSequence_extends _) fun v => answer_extends count v

theorem listPush_extends : Extends more (listPush.run count) (listPush.run count) := by
  refine .bind (reference_extends count 0) fun id => ?_
  refine .bind (argument_extends count 1) fun v => ?_
  refine .bind (sequence_extends id) fun s => ?_
  refine .bind (.need _ _) fun s => ?_
  refine .bind (putSequence_extends id s) fun _ => ?_
  exact .bind (lengthValue_extends _) fun v => answer_extends count v

/-- Taking an item off a sequence, in either way. -/
theorem take_extends (take? : Sequence → Option (Value × Sequence)) :
    let take : Action Unit := do
      let id ← reference count 0
      let s ← sequence id
      let (v, s) ← Machine.need .unchangeable (take? s)
      putSequence id s
      answer v count
    Extends more take take := by
  refine .bind (reference_extends count 0) fun id => ?_
  refine .bind (sequence_extends id) fun s => ?_
  refine .bind (.need _ _) fun taken => ?_
  exact .bind (putSequence_extends id taken.2) fun _ => answer_extends count taken.1

theorem listConcat_extends : Extends more (listConcat.run count) (listConcat.run count) := by
  refine .bind (reference_extends count 0) fun target => ?_
  refine .bind (reference_extends count 1) fun source => ?_
  refine .bind (sequence_extends source) fun _ => ?_
  refine .bind (sequence_extends target) fun _ => ?_
  refine .bind (.need _ _) fun s => ?_
  exact .bind (putSequence_extends target s) fun _ => answer_extends count _

theorem listGet_extends : Extends more (listGet.run count) (listGet.run count) := by
  refine .bind (reference_extends count 0) fun id => ?_
  refine .bind (argument_extends count 1) fun v => ?_
  have item (index : Nat) :
      let rest : Action Unit := do
        let s ← sequence id
        answer (← Machine.need .indexOutOfRange s.items[index]?) count
      Extends more rest rest := by
    refine .bind (sequence_extends id) fun s => ?_
    exact .bind (.need _ _) fun v => answer_extends count v
  split
  · split
    · exact .bind (.throw _) item
    · exact .bind (.pure _) item
  · exact .bind (.throw _) item

theorem listFree_extends : Extends more (listFree.run count) (listFree.run count) := by
  refine .bind (reference_extends count 0) fun id => ?_
  refine .bind (.change (fun w =>
    ((w.store.destroy id).1, { w with store := (w.store.destroy id).2 })) fun _ => rfl) ?_
  intro destroyed
  exact answer_extends count _

/-- The standard procedures do the same in a machine with more registers. -/
theorem standard_extends :
    ∀ p ∈ standard, ∀ count, Extends more (p.run count) (p.run count) := by
  intro p mem count
  simp only [standard, List.mem_toArray, List.mem_cons, List.not_mem_nil, or_false] at mem
  rcases mem with rfl | rfl | rfl | rfl | rfl | rfl | rfl | rfl | rfl | rfl | rfl | rfl
  · exact print_extends more count
  · exact promptInt_extends more count
  · exact promptFloat_extends more count
  · exact lenOf_extends more count
  · exact makeList_extends more count
  · exact makeTuple_extends more count
  · exact listPush_extends more count
  · exact take_extends more count Sequence.pop?
  · exact take_extends more count Sequence.popFront?
  · exact listConcat_extends more count
  · exact listGet_extends more count
  · exact listFree_extends more count

end Procedure

namespace Machine

/-- Each instruction does under higher limits, and with more registers, what it did before. -/
theorem dispatch_extends {more : Nat} {s : Setting} {c' : Limits} (le : s.limits ≤ c')
    (procedures : ∀ p ∈ s.procedures, ∀ count, Extends more (p.run count) (p.run count))
    (i : Instruction) : Extends more (dispatch s i) (dispatch (s.under c') i) := by
  unfold dispatch
  cases i.op with
  | nop => exact advance_extends
  | mov =>
      refine .bind (operand_extends i 0) fun dest => ?_
      refine .bind (operand_extends i 1) fun x => ?_
      refine .bind (load_extends s c' x) fun v => ?_
      exact .bind (assign_extends dest v) fun _ => advance_extends
  | push =>
      refine .bind (operand_extends i 0) fun x => ?_
      refine .bind (load_extends s c' x) fun v => ?_
      exact .bind (push_extends v) fun _ => advance_extends
  | neg =>
      refine .bind (operand_extends i 0) fun dest => ?_
      refine .bind (.require _ _) fun _ => ?_
      refine .bind (load_extends s c' dest) fun v => ?_
      refine .bind (.require _ _) fun _ => ?_
      exact .bind (assign_extends dest _) fun _ => advance_extends
  | binary op => exact .bind (binary_extends op) fun _ => advance_extends
  | jump =>
      refine .bind (operand_extends i 0) fun x => ?_
      exact .bind (jumpTarget_extends s c' x) fun place => goTo_extends place
  | jumpIf => exact jumpWhen_extends s c' i true
  | jumpElse => exact jumpWhen_extends s c' i false
  | call =>
      refine .bind (operand_extends i 0) fun x => ?_
      refine .bind (count_extends s c' x) fun func => ?_
      refine .bind (operand_extends i 1) fun y => ?_
      exact .bind (count_extends s c' y) fun argc => call_extends le func argc
  | nativeCall =>
      refine .bind_of_ok (requested_extends s c' i) fun request m n run => ?_
      have known := requested_mem run
      exact Extends.bind (procedures _ known request.2) (fun _ => advance_extends) n
  | ret =>
      refine .bind (operand_extends i 0) fun x => ?_
      exact .bind (load_extends s c' x) fun v => ret_extends v
  | halt => exact .modify fun _ => rfl

end Machine

end RegisterCode
