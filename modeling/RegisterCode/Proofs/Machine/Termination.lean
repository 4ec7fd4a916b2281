import RegisterCode.Proofs.Machine.Instructions
import Mathlib.Data.Nat.Digits.Defs
import Mathlib.Tactic.Ring

/-!
Programs whose jumps all lead forward come to an end, also without a limit on steps. The
code that is left in the open frames is the measure, the outermost frame first: an
instruction gets on in its frame, a call gets on in the caller and opens a frame, of which
the limits allow only so many, and a return closes one (`Program.Forward.endsWithin`).
-/

namespace RegisterCode

/-! ### Where an instruction leads -/

/-- The operand that holds the target of a jump. -/
def Instruction.target? (i : Instruction) : Option Operand :=
  match i.op with
  | .jump => i.operand? 0
  | .jumpIf | .jumpElse => i.operand? 1
  | _ => none

/-- Every jump whose target stands in the instruction leads forward. -/
def Program.Forward (p : Program) : Prop :=
  ∀ (func place : Nat) (i : Instruction) (target : Int16), p.fetch? func place = some i →
    i.target? = some (.immediate target) → place < target.toNatClampNeg

namespace Instruction

theorem target?_jump (x : Operand) : (unary .jump x).target? = some x :=
  operand?_unary .jump x

theorem target?_jumpElse (x y : Operand) : (binary .jumpElse x y).target? = some y :=
  operand?_binary_one .jumpElse x y

end Instruction

namespace Machine

/-- The place in the code is the same. -/
def SamePlace (m n : Machine) : Prop := n.place = m.place

namespace SamePlace

theorem refl (m : Machine) : SamePlace m m := rfl

theorem trans {m n o : Machine} (h : SamePlace m n) (h' : SamePlace n o) : SamePlace m o :=
  Eq.trans h' h

instance : Composes SamePlace := ⟨refl, trans⟩

end SamePlace

theorem Lowered.samePlace {m n : Machine} (h : Lowered m n) : SamePlace m n := by
  rw [SamePlace, h.same]

theorem load_samePlace (s : Setting) (x : Operand) : KeepsTo SamePlace (load s x) :=
  fun m => (load_lowered s x m).samePlace

theorem write_samePlace (index : Nat) (v : Value) : KeepsTo SamePlace (write index v) := by
  intro m
  by_cases inside : index < m.registers.size
  · rw [leaves_of_ok (write_of_lt v inside)]
    rfl
  · rw [leaves_of_error (write_of_le v (Nat.not_lt.1 inside))]
    rfl

theorem push_samePlace (v : Value) : KeepsTo SamePlace (push v) :=
  .bind .get fun m => .bind (write_samePlace m.top v) fun _ => .modify fun _ => rfl

theorem assign_samePlace (x : Operand) (v : Value) : KeepsTo SamePlace (assign x v) :=
  .bind (require_keeps _ _) fun _ => .bind (slot_keeps _) fun index =>
    .bind (write_samePlace index v) fun _ => .modify fun _ => rfl

theorem binary_samePlace (op : BinaryOp) : KeepsTo SamePlace (binary op) := by
  have pops : KeepsTo SamePlace pop := fun m => (pop_lowered m).samePlace
  refine .bind pops fun right => .bind pops fun left => ?_
  dsimp only
  split
  · split <;> exact .throw _
  · exact .bind (.modify fun _ => rfl) fun _ => push_samePlace _
  · exact push_samePlace _

/-- An action that, if it succeeds, leads from a place to one as described. -/
def Leads (P : Nat → Nat → Prop) (a : Action Unit) : Prop :=
  ∀ m n, a m = .ok () n → P m.place n.place

namespace Leads

variable {P Q : Nat → Nat → Prop} {α : Type} {a : Action α} {f : α → Action Unit}

theorem bind_of_ok (ha : KeepsTo SamePlace a) (hf : ∀ x m n, a m = .ok x n → Leads P (f x)) :
    Leads P (a >>= f) := by
  intro m n run
  obtain ⟨x, t, first, rest⟩ := bind_eq_ok_iff.1 run
  have same : t.place = m.place := ha.ok first
  exact same ▸ hf x m t first t n rest

theorem bind (ha : KeepsTo SamePlace a) (hf : ∀ x, Leads P (f x)) : Leads P (a >>= f) :=
  bind_of_ok ha fun x _ _ _ => hf x

theorem mono {a : Action Unit} (h : Leads P a) (imp : ∀ q q', P q q' → Q q q') : Leads Q a :=
  fun m n run => imp _ _ (h m n run)

end Leads

theorem advance_leads : Leads (fun q q' => q' = q + 1) advance := by
  intro m n run
  cases run
  rfl

/-- The target of a jump is the number that stands in its operand. -/
theorem jumpTarget_ok {s : Setting} {x : Operand} {m n : Machine} {place : Nat}
    (h : jumpTarget s x m = .ok place n) :
    ∃ target : Int16, x = .immediate target ∧ place = target.toNatClampNeg := by
  obtain ⟨mode, value⟩ := x
  cases mode with
  | immediate =>
      by_cases named : 0 ≤ value
      · rw [show (⟨.immediate, value⟩ : Operand) = .immediate value from rfl,
          jumpTarget_immediate named] at h
        cases h
        exact ⟨value, rfl, rfl⟩
      · have negative : value.toInt32 < 0 := by
          rw [Int32.lt_iff_toInt_lt, Int16.toInt_toInt32]
          exact Int16.lt_iff_toInt_lt.1 (Int16.not_le.1 named)
        simp [jumpTarget, require, bind_apply, count, load, negative] at h
  | constant | register | stack | object => simp [jumpTarget, require, bind_apply] at h

/-- The next place, or the one that the target operand names. -/
def NextOrTarget (target? : Option Operand) (q q' : Nat) : Prop :=
  q' = q + 1 ∨ ∃ target : Int16, target? = some (.immediate target) ∧ q' = target.toNatClampNeg

theorem jump_leads {s : Setting} {x : Operand} {f : Nat → Action Unit}
    (continues : ∀ place, Leads (fun q q' => q' = q + 1 ∨ q' = place) (f place)) :
    Leads (NextOrTarget (some x)) (jumpTarget s x >>= f) := by
  refine .bind_of_ok (fun m => (jumpTarget_lowered s x m).samePlace) fun place m n run => ?_
  obtain ⟨target, rfl, rfl⟩ := jumpTarget_ok run
  exact (continues _).mono fun q q' => .imp_right fun same => ⟨target, rfl, same⟩

/-- Reading an operand of the instruction. -/
theorem operand_leads {P : Nat → Nat → Prop} {i : Instruction} {slot : Nat}
    {f : Operand → Action Unit} (h : ∀ x, i.operand? slot = some x → Leads P (f x)) :
    Leads P (operand i slot >>= f) := by
  refine .bind_of_ok (operand_keeps i slot) fun x m n run => h x ?_
  unfold operand at run
  cases found : i.operand? slot with
  | none =>
      rw [found] at run
      cases run
  | some y =>
      rw [found] at run
      cases run
      rfl

theorem jumpWhen_leads (s : Setting) {i : Instruction} (taken : Bool) :
    Leads (NextOrTarget (i.operand? 1)) (jumpWhen s i taken) := by
  refine .bind (operand_keeps i 0) fun x => .bind (load_samePlace s x) fun v =>
    .bind (need_keeps _ _) fun cond => operand_leads fun y found => ?_
  rw [found]
  refine jump_leads fun place => .bind (.modify fun _ => rfl) fun _ => ?_
  split
  · intro m n run
    cases run
    exact .inr rfl
  · exact advance_leads.mono fun _ _ => .inl

/-- Every instruction but a call, a return and a halt leads to the next one or to its target. -/
theorem dispatch_leads {s : Setting} (confined : s.IsConfined) {i : Instruction}
    (notCall : i.op ≠ .call) (notRet : i.op ≠ .ret) (notHalt : i.op ≠ .halt) :
    Leads (NextOrTarget i.target?) (dispatch s i) := by
  have next {a : Action Unit} (h : Leads (fun q q' => q' = q + 1) a) :
      Leads (NextOrTarget i.target?) a := h.mono fun _ _ => .inl
  unfold dispatch
  cases op : i.op with
  | nop => exact next advance_leads
  | mov =>
      refine next (.bind (operand_keeps i 0) fun dest => .bind (operand_keeps i 1) fun x => ?_)
      exact .bind (load_samePlace s x) fun v =>
        .bind (assign_samePlace dest v) fun _ => advance_leads
  | push =>
      refine next (.bind (operand_keeps i 0) fun x => .bind (load_samePlace s x) fun v => ?_)
      exact .bind (push_samePlace v) fun _ => advance_leads
  | neg =>
      refine next (.bind (operand_keeps i 0) fun dest => .bind (require_keeps _ _) fun _ => ?_)
      refine .bind (load_samePlace s dest) fun v => .bind (require_keeps _ _) fun _ => ?_
      exact .bind (assign_samePlace dest _) fun _ => advance_leads
  | binary b => exact next (.bind (binary_samePlace b) fun _ => advance_leads)
  | jump =>
      have target : i.target? = i.operand? 0 := by rw [Instruction.target?, op]
      refine operand_leads fun x found => ?_
      rw [target, found]
      refine jump_leads fun place m n run => ?_
      cases run
      exact .inr rfl
  | jumpIf =>
      rw [Instruction.target?, op]
      exact jumpWhen_leads s true
  | jumpElse =>
      rw [Instruction.target?, op]
      exact jumpWhen_leads s false
  | call => exact absurd op notCall
  | nativeCall =>
      refine next (.bind_of_ok (fun m => (requested_lowered s i m).samePlace) ?_)
      rintro ⟨p, argc⟩ m n run
      refine .bind (fun m' => ?_) fun _ => advance_leads
      have same := (confined p (requested_mem run) argc m').same
      rw [SamePlace, same]
  | ret => exact absurd op notRet
  | halt => exact absurd op notHalt

/-! ### The measure -/

end Machine

namespace Program

/-- The length of the code of a function. -/
def length (p : Program) (func : Nat) : Nat := (p.chunks[func]?.map Array.size).getD 0

/-- The length of the longest code. -/
def longest (p : Program) : Nat := (p.chunks.toList.map Array.size).foldr max 0

theorem length_le_longest (p : Program) (func : Nat) : p.length func ≤ p.longest := by
  have le {sizes : List Nat} {size : Nat} (mem : size ∈ sizes) : size ≤ sizes.foldr max 0 := by
    induction sizes with
    | nil => cases mem
    | cons first sizes ih =>
        rcases List.mem_cons.1 mem with rfl | mem
        · exact Nat.le_max_left _ _
        · exact Nat.le_trans (ih mem) (Nat.le_max_right _ _)
  rw [length]
  cases found : p.chunks[func]? with
  | none => exact Nat.zero_le _
  | some chunk =>
      exact le (List.mem_map_of_mem (Array.mem_toList_iff.2 (Array.mem_of_getElem? found)))

theorem lt_length_of_fetch? {p : Program} {func place : Nat} {i : Instruction}
    (h : p.fetch? func place = some i) : place < p.length func := by
  obtain ⟨chunk, found, here⟩ := Option.bind_eq_some_iff.1 h
  rw [length, found]
  exact (Array.getElem?_eq_some_iff.1 here).1

/-- How far a place is from the end of the code, and one more. -/
def ahead (p : Program) (func place : Nat) : Nat := p.length func + 1 - place

theorem ahead_lt (p : Program) (func place : Nat) : p.ahead func place < p.longest + 2 := by
  have le := p.length_le_longest func
  rw [ahead]
  omega

end Program

namespace Machine

/-- What is ahead in the open frames, the innermost first. -/
def digits (p : Program) (m : Machine) : List Nat :=
  p.ahead m.func m.place :: m.frames.toList.reverse.map fun frame => p.ahead frame.func frame.place

theorem length_digits (p : Program) (m : Machine) : (m.digits p).length = m.depth + 1 := by
  simp [digits, depth]

/-- What a run can still do: there is room for so many digits more in front. -/
def potential (s : Setting) (m : Machine) : Nat :=
  (s.program.longest + 2) ^ (max 1 s.limits.depth - m.depth) *
    Nat.ofDigits (s.program.longest + 2) (m.digits s.program)

theorem potential_lt {s : Setting} {m : Machine} (framed : Framed s.limits m) :
    m.potential s < (s.program.longest + 2) ^ (max 1 s.limits.depth + 1) := by
  have depth_le := framed.depth_le
  have below : Nat.ofDigits (s.program.longest + 2) (m.digits s.program) <
      (s.program.longest + 2) ^ (m.depth + 1) := by
    rw [← length_digits s.program m]
    refine Nat.ofDigits_lt_base_pow_length' fun digit mem => ?_
    rcases List.mem_cons.1 mem with rfl | mem
    · exact s.program.ahead_lt _ _
    · obtain ⟨frame, -, rfl⟩ := List.mem_map.1 mem
      exact s.program.ahead_lt _ _
  have split : max 1 s.limits.depth + 1 = (max 1 s.limits.depth - m.depth) + (m.depth + 1) := by
    omega
  rw [split, Nat.pow_add]
  exact Nat.mul_lt_mul_of_pos_left below (Nat.pow_pos (Nat.succ_pos _))

variable {s : Setting} {m n : Machine}

/-- Getting on in the innermost frame. -/
theorem potential_lt_of_ahead (frames : n.frames = m.frames)
    (lt : s.program.ahead n.func n.place < s.program.ahead m.func m.place) :
    n.potential s < m.potential s := by
  rw [potential, potential, depth, depth, digits, digits, frames]
  refine Nat.mul_lt_mul_of_pos_left ?_ (Nat.pow_pos (Nat.succ_pos _))
  rw [Nat.ofDigits_cons, Nat.ofDigits_cons]
  exact Nat.add_lt_add_right lt _

/-- Getting on in the innermost frame and opening one more. -/
theorem potential_lt_of_call {frame : Frame} (frames : n.frames = m.frames.push frame)
    (deeper : m.depth < max 1 s.limits.depth)
    (lt : s.program.ahead frame.func frame.place < s.program.ahead m.func m.place) :
    n.potential s < m.potential s := by
  have depth_eq : n.depth = m.depth + 1 := by rw [depth, depth, frames, Array.size_push]
  have digits_eq : n.digits s.program = s.program.ahead n.func n.place ::
      s.program.ahead frame.func frame.place :: (m.digits s.program).tail := by
    simp [digits, frames]
  have digits_eq' : m.digits s.program =
      s.program.ahead m.func m.place :: (m.digits s.program).tail := rfl
  have split : max 1 s.limits.depth - m.depth = (max 1 s.limits.depth - (m.depth + 1)) + 1 := by
    omega
  have first := s.program.ahead_lt n.func n.place
  rw [potential, potential, depth_eq, digits_eq, digits_eq', split, Nat.pow_succ, Nat.mul_assoc]
  refine Nat.mul_lt_mul_of_pos_left ?_ (Nat.pow_pos (Nat.succ_pos _))
  generalize (m.digits s.program).tail = rest
  generalize s.program.longest + 2 = base at *
  simp only [Nat.ofDigits_cons, List.tail_cons]
  calc s.program.ahead n.func n.place +
        base * (s.program.ahead frame.func frame.place + base * Nat.ofDigits base rest)
      < base * 1 +
        base * (s.program.ahead frame.func frame.place + base * Nat.ofDigits base rest) := by
        omega
    _ = base * (s.program.ahead frame.func frame.place + 1 + base * Nat.ofDigits base rest) := by
        ring
    _ ≤ base * (s.program.ahead m.func m.place + base * Nat.ofDigits base rest) :=
        Nat.mul_le_mul_left _ (Nat.add_le_add_right lt _)

/-- Closing the innermost frame. -/
theorem potential_lt_of_return {frame : Frame} (frames : m.frames = n.frames.push frame)
    (func : n.func = frame.func) (place : n.place = frame.place)
    (inside : m.depth ≤ max 1 s.limits.depth) (pos : 0 < s.program.ahead m.func m.place) :
    n.potential s < m.potential s := by
  have depth_eq : m.depth = n.depth + 1 := by rw [depth, depth, frames, Array.size_push]
  have digits_eq : m.digits s.program =
      s.program.ahead m.func m.place :: n.digits s.program := by
    simp [digits, frames, func, place]
  have split : max 1 s.limits.depth - n.depth = (max 1 s.limits.depth - m.depth) + 1 := by omega
  rw [potential, potential, digits_eq, split, Nat.pow_succ, Nat.mul_assoc, Nat.ofDigits_cons]
  refine Nat.mul_lt_mul_of_pos_left ?_ (Nat.pow_pos (Nat.succ_pos _))
  exact Nat.lt_add_of_pos_left pos

theorem Lowered.potential_eq (h : Lowered m n) : n.potential s = m.potential s :=
  (congrArg (potential s) h.same).trans rfl

variable {i : Instruction}

theorem ahead_succ_lt (fetched : s.program.fetch? m.func m.place = some i) :
    s.program.ahead m.func (m.place + 1) < s.program.ahead m.func m.place := by
  have lt := Program.lt_length_of_fetch? fetched
  rw [Program.ahead, Program.ahead]
  omega

/-- A call gets on in the caller. -/
theorem potential_lt_of_dispatch_call (fetched : s.program.fetch? m.func m.place = some i)
    (isCall : i.op = .call) (ok : dispatch s i m = .ok () n) : n.potential s < m.potential s := by
  rw [dispatch_call isCall] at ok
  obtain ⟨⟨func, argc⟩, m', loads, calls⟩ := bind_eq_ok_iff.1 ok
  have lowered := (callee_lowered s i).ok loads
  obtain ⟨callable, rfl⟩ := call_ok calls
  rw [← lowered.potential_eq]
  have fetched : s.program.fetch? m'.func m'.place = some i := by
    rw [lowered.same]
    exact fetched
  refine @potential_lt_of_call s m' _ ⟨m'.func, m'.place + 1, m'.base, m'.top⟩ rfl ?_
    (ahead_succ_lt fetched)
  exact Nat.lt_of_lt_of_le callable.depth_lt (Nat.le_max_right _ _)

/-- A return closes a frame. -/
theorem potential_lt_of_dispatch_ret (framed : Framed s.limits m) (opened : m.frames ≠ #[])
    (fetched : s.program.fetch? m.func m.place = some i) (isRet : i.op = .ret)
    (ok : dispatch s i m = .ok () n) : n.potential s < m.potential s := by
  rw [dispatch_ret isRet] at ok
  obtain ⟨v, m', loads, returns⟩ := bind_eq_ok_iff.1 ok
  have lowered := (result_lowered s i).ok loads
  have framed' : Framed s.limits m' := framed.of_inFrame lowered.inFrame
  rw [← lowered.potential_eq]
  have opened' : m'.frames ≠ #[] := by
    rw [lowered.same]
    exact opened
  have fetched' : s.program.fetch? m'.func m'.place = some i := by
    rw [lowered.same]
    exact fetched
  obtain ⟨frames, frame, saved, flag, frames_eq, operands_eq⟩ := framed'.split opened'
  by_cases inside : m'.base < m'.registers.size
  · rw [ret_of_lt v inside frames_eq operands_eq] at returns
    cases returns
    refine @potential_lt_of_return s m' _ frame ?_ rfl rfl framed'.depth_le
      (Nat.zero_lt_of_lt (ahead_succ_lt fetched'))
    rw [returned, frames_eq, Array.pop_push]
  · rw [ret_of_le v (Nat.not_lt.1 inside)] at returns
    cases returns

/-- An instruction after which the run goes on leaves less to do. -/
theorem potential_lt_of_done (forward : s.program.Forward) (confined : s.IsConfined)
    (framed : Framed s.limits m) (done : m.attempt s = .done n) (goesOn : n.isRunning = true) :
    n.potential s < m.potential s := by
  have attempted := m.attempted s
  rw [done] at attempted
  cases attempted with
  | @done i n running below fetched ok =>
      obtain ⟨-, opened, -⟩ := isRunning_iff.1 running
      have framed : Framed s.limits m.started := framed.congr rfl rfl rfl rfl rfl
      have fetched : s.program.fetch? m.started.func m.started.place = some i := fetched
      show n.potential s < m.started.potential s
      by_cases isCall : i.op = .call
      · exact potential_lt_of_dispatch_call fetched isCall ok
      · by_cases isRet : i.op = .ret
        · exact potential_lt_of_dispatch_ret framed opened fetched isRet ok
        · have notHalt : i.op ≠ .halt := by
            intro isHalt
            have halted : n.halted = true := by
              simp only [dispatch, isHalt, modify_apply] at ok
              cases ok
              rfl
            rw [(isRunning_iff.1 goesOn).1] at halted
            cases halted
          obtain ⟨-, same⟩ := (dispatch_inFrame confined isCall isRet).ok ok framed.seated
          have ahead : m.started.place < n.place := by
            rcases dispatch_leads confined isCall isRet notHalt _ _ ok with
              next | ⟨target, found, leads⟩
            · rw [next]
              exact Nat.lt_succ_self _
            · rw [leads]
              exact forward _ _ i target fetched found
          have lt := Program.lt_length_of_fetch? fetched
          have func : n.func = m.started.func := same.func
          refine potential_lt_of_ahead same.frames ?_
          rw [func, Program.ahead, Program.ahead]
          omega

/-! ### Runs -/

/-- The run comes to its end within that many steps: one of them says that it was the last. -/
def EndsWithin (s : Setting) : Nat → Machine → Prop
  | 0, _ => False
  | n + 1, m =>
    match m.step s with
    | (true, m) => EndsWithin s n m
    | (false, _) => True

theorem endsWithin_succ {k : Nat} :
    m.EndsWithin s (k + 1) ↔ ((m.step s).1 = true → (m.step s).2.EndsWithin s k) := by
  rw [EndsWithin]
  rcases m.step s with ⟨more, n⟩
  cases more <;> simp

end Machine

/-- A run of a program whose jumps lead forward comes to an end. The number of steps that
it takes is below a power of the length of the longest function, with as many factors as
frames can be open. -/
theorem Program.Forward.endsWithin {s : Setting} (forward : s.program.Forward)
    (confined : s.IsConfined) {m : Machine} (framed : Machine.Framed s.limits m) :
    m.EndsWithin s ((s.program.longest + 2) ^ (max 1 s.limits.depth + 1)) := by
  suffices all : ∀ k, m.potential s < k → m.EndsWithin s k from all _ (Machine.potential_lt framed)
  intro k
  induction k generalizing m with
  | zero => exact fun lt => absurd lt (Nat.not_lt_zero _)
  | succ k ih =>
      intro lt
      refine Machine.endsWithin_succ.2 fun more => ?_
      have framed' := Machine.step_framed confined framed
      rw [Machine.step] at more framed' ⊢
      cases outcome : m.attempt s with
      | done n =>
          rw [outcome] at more framed'
          have less := Machine.potential_lt_of_done forward confined framed outcome more
          exact ih framed' (Nat.lt_of_lt_of_le less (Nat.le_of_lt_succ lt))
      | ended | exhausted | failed =>
          rw [outcome] at more
          cases more

end RegisterCode
