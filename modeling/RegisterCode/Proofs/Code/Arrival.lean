import RegisterCode.Proofs.Code.Levels
import RegisterCode.Proofs.Code.Windows

/-!
Where the arguments of a call arrive. The code of a function does not name the registers that
a call hands on: they are those below the top of the frame, wherever that is. In front of a call
its arguments are copied to the registers named last, one after the other. They are what the call
hands on, unless the frame was opened with the top above them.
-/

namespace RegisterCode

namespace Machine

variable {s : Setting} {ledgers : Nat → Ledger} {outer : List Frame} {m n : Machine}

/-- In front of a call, the instruction before has moved its last argument. -/
theorem Arrives.of_copy (h : Arrives s m n) {q : Nat} {dest src : Operand} {i : Instruction}
    (place : n.place = q + 1) (copy : s.program.fetch? n.func q = some (.binary .mov dest src))
    (here : s.program.fetch? n.func n.place = some i) (other : i.op ≠ .nop) :
    n.frames = m.frames ∧ n.func = m.func ∧ n.base = m.base ∧ m.place = q := by
  cases h with
  | next frames func base place' => exact ⟨frames, func, base, by omega⟩
  | landed nop =>
      rw [here] at nop
      cases nop
      exact absurd rfl other
  | entered start => omega
  | @back q' i' place' fetched isCall =>
      obtain rfl : q' = q := by omega
      rw [copy] at fetched
      cases fetched
      cases isCall

/-- A step that moves a value to a register of the frame. -/
theorem done_of_move {src : Operand} {slot : Nat} (plain : src.mode ≠ .stack)
    (small : slot < numberRange) (done : m.attempt s = .done n)
    (fetched : s.program.fetch? m.func m.place =
      some (.binary .mov (.register (Int16.ofNat slot)) src)) :
    ∃ v, load s src m.started = .ok v m.started ∧ n = (m.started.assigned slot v).advanced := by
  have attempted := attempted s m
  rw [done] at attempted
  cases attempted with
  | @done i n running below fetched' ok =>
      rw [fetched] at fetched'
      cases fetched'
      rcases (AgreeOn.refl Set.univ m.started).move (s := s) small plain (fun _ => trivial) with
        ⟨v, loads, ok', -⟩ | ⟨fault, _, _, -, error, -⟩
      · exact ⟨v, loads, by simpa using ok.symm.trans ok'⟩
      · cases error.symm.trans ok

/-- A machine at the beginning of a function, or behind an instruction. -/
def Came (s : Setting) (n : Machine) : Prop :=
  n.place = 0 ∨ ∃ m : Machine, m.attempt s = .done n ∧ Arrives s m n

/-- A call hands on the registers that were named last, which are all below the top. -/
theorem Came.filled (came : Came s n) {b : Ledger} {c : Nat} {i : Instruction}
    (window : b.Window (s.program.fetch? n.func) n.place c)
    (fetched : s.program.fetch? n.func n.place = some i) (other : i.op ≠ .nop) :
    n.base + b.room n.place ≤ n.top := by
  have positive := window.positive
  have le := window.le
  have room := window.room
  have small := window.small
  rcases came with start | ⟨m, done, arrives⟩
  · omega
  · obtain ⟨src, plain, copy⟩ := window.copies (c - 1) (by omega)
    rw [show n.place - c + (c - 1) = n.place - 1 by omega] at copy
    obtain ⟨-, func, base, place⟩ := arrives.of_copy (by omega) copy fetched other
    have small' : b.room n.place - c + (c - 1) < numberRange := by omega
    obtain ⟨v, -, moved⟩ := done_of_move plain small' done (by rwa [← func, place])
    have top : n.top = max m.top (m.base + (b.room n.place - c + (c - 1)) + 1) :=
      (congrArg Machine.top moved :)
    omega

/-- An activation copied the value to a register of its frame, which holds it still. -/
structure Delivers (s : Setting) (before m : Machine) (slot : Nat) (v : Value) : Prop where
  frames : before.frames = m.frames
  func : before.func = m.func
  base : before.base = m.base
  copies : ∃ src : Operand, src.mode ≠ .stack ∧
    s.program.fetch? before.func before.place =
      some (.binary .mov (.register (Int16.ofNat slot)) src) ∧
    load s src before.started = .ok v before.started
  holds : m.registers[m.base + slot]? = some v

theorem holds_assigned {slot : Nat} {v : Value} (seated : Seated (m.assigned slot v)) :
    (m.assigned slot v).registers[m.base + slot]? = some v := by
  have top_le : max m.top (m.base + slot + 1) ≤ (m.registers.setIfInBounds _ v).size :=
    seated.top_le
  rw [Array.size_setIfInBounds] at top_le
  exact Array.getElem?_setIfInBounds_self_of_lt (by omega)

theorem keeps_assigned {slot slot' : Nat} {v : Value} (other : slot' ≠ slot) :
    (m.assigned slot v).registers[m.base + slot']? = m.registers[m.base + slot']? :=
  Array.getElem?_setIfInBounds_ne (by omega)

/-! ### Runs -/

/-- A run that is going on was going on before. -/
theorem isRunning_of_step (running : (m.step s).2.isRunning = true) : m.isRunning = true := by
  cases stopped : m.isRunning with
  | true => rfl
  | false =>
      rw [step, attempt, stopped] at running
      exact stopped.symm.trans running

/-- What an instruction does in one machine. -/
theorem Tidy.goesOn_alone (ruled : s.program.Ruled ledgers) (lawful : s.Lawful)
    (framed : Framed s.limits m) (opened : m.frames ≠ #[]) (h : Tidy s ledgers outer Set.univ m)
    {i : Instruction} (fetched : s.program.fetch? m.func m.place = some i)
    (room : ∀ n, i.arguments? = some n → m.base + n ≤ m.top) :
    (∃ fault n, fault.status ≠ .ok ∧ dispatch s i m.started = .error fault n) ∨
      ∃ n, dispatch s i m.started = .ok () n ∧
        (outer.length ≤ n.depth → Tidy s ledgers outer Set.univ n ∧ Arrives s m n) := by
  have reads : Reads Set.univ m i := ⟨fun _ _ => trivial, fun _ _ _ _ _ => trivial⟩
  rcases h.goesOn ruled lawful framed opened (.refl _ _) fetched room reads with
    ⟨fault, n, _, bad, error, -⟩ | ⟨n, _, ok, -, -, tidy⟩
  · exact .inl ⟨fault, n, bad, error⟩
  · refine .inr ⟨n, ok, fun deep => ?_⟩
    obtain ⟨tidy, arrives⟩ := tidy deep
    exact ⟨tidy.mono (Set.subset_univ _), arrives⟩

/-- A step from a tidy machine that goes on leads to a tidy machine. -/
theorem Tidy.step (ruled : s.program.Ruled ledgers) (lawful : s.Lawful)
    (framed : Framed s.limits m) (h : Tidy s ledgers outer Set.univ m)
    (room : ∀ i n, s.program.fetch? m.func m.place = some i → i.arguments? = some n →
      m.base + n ≤ m.top)
    (deep : outer.length ≤ (m.step s).2.depth) (running : (m.step s).2.isRunning = true) :
    m.attempt s = .done (m.step s).2 ∧ Tidy s ledgers outer Set.univ (m.step s).2 ∧
      Arrives s m (m.step s).2 := by
  have attempted := attempted s m
  rw [Machine.step] at deep running ⊢
  generalize m.attempt s = outcome at attempted deep running ⊢
  cases attempted with
  | ended stopped => exact absurd (stopped.symm.trans running) Bool.false_ne_true
  | exhausted reached => cases (isRunning_iff.1 running).2.2
  | lost _ below none => cases (isRunning_iff.1 running).2.2
  | @done i n running' below fetched ok =>
      obtain ⟨-, opened, -⟩ := isRunning_iff.1 running'
      rcases h.goesOn_alone ruled lawful framed opened fetched fun n => room i n fetched with
        ⟨_, _, -, error⟩ | ⟨_, ok', tidy⟩
      · cases error.symm.trans ok
      · cases ok'.symm.trans ok
        exact ⟨rfl, tidy deep⟩
  | @failed i fault n running' below fetched error =>
      obtain ⟨-, opened, -⟩ := isRunning_iff.1 running'
      rcases h.goesOn_alone ruled lawful framed opened fetched fun n => room i n fetched with
        ⟨_, _, bad, error'⟩ | ⟨_, ok, -⟩
      · cases error'.symm.trans error
        exact absurd (isRunning_iff.1 running).2.2 bad
      · cases ok.symm.trans error

/-- The machine is in front of the first instruction of a function. -/
structure Enters (s : Setting) (m : Machine) : Prop where
  framed : Framed s.limits m
  place : m.place = 0
  top : entryTop m.callers = m.top

theorem Enters.came_of_last (enters : Enters s m) {k : Nat}
    (last : ∀ j, k = j + 1 → (m.afterSteps s j).attempt s = .done (m.afterSteps s k) ∧
      Arrives s (m.afterSteps s j) (m.afterSteps s k)) : Came s (m.afterSteps s k) := by
  cases k with
  | zero => exact .inl enters.place
  | succ j => exact .inr ⟨_, last j rfl⟩

/-- The frame holds the values that a call hands on. -/
theorem room_of_came (ruled : s.program.Ruled ledgers) (came : Came s n) (i : Instruction) (c : Nat)
    (fetched : s.program.fetch? n.func n.place = some i) (arguments : i.arguments? = some c) :
    n.base + c ≤ n.top := by
  obtain ⟨other, window, -⟩ := ((ruled _).allows _ _ fetched).window arguments
  have filled := came.filled window fetched other
  have room := window.room
  omega

/-- With a frame open, the top that the frame was opened with. -/
theorem exists_frame (opened : m.frames ≠ #[]) :
    ∃ frame, m.frames.back? = some frame ∧ entryTop m.callers = frame.top := by
  obtain ⟨frames, frame, split⟩ := Array.eq_push_of_size_ne_zero
    fun size => opened (Array.eq_empty_of_size_eq_zero size)
  refine ⟨frame, ?_, ?_⟩
  · rw [split, Array.back?_push]
  · rw [callers, split, toList_push_reverse]
    rfl

section

variable (ruled : s.program.Ruled ledgers) (lawful : s.Lawful) (enters : Enters s m)

include ruled enters

theorem Enters.tidy (le : { r | r < m.top } ⊆ known) : Tidy s ledgers m.callers known m := by
  have base_le := enters.framed.seated.base_le
  have start : (ledgers m.func).held m.place = 0 := by
    rw [enters.place]
    exact (ruled m.func).start
  refine ⟨.outer, ⟨?_, ?_, ?_⟩, fun r ge lt => ?_, fun r lt ge => ?_⟩
  · rw [enters.top]
    exact base_le
  · rw [enters.top, start]
    exact Nat.le_refl _
  · rw [enters.top]
    exact Nat.le_trans (Nat.le_max_left _ _) (Nat.le_add_right _ _)
  · rw [enters.top] at lt
    exact le lt
  · omega

include lawful

/-- As long as the function has not returned, the run from its beginning is tidy. -/
theorem Enters.tidy_afterSteps (k : Nat) (deep : ∀ j ≤ k, m.depth ≤ (m.afterSteps s j).depth)
    (running : (m.afterSteps s k).isRunning = true) :
    Tidy s ledgers m.callers Set.univ (m.afterSteps s k) ∧
      ∀ j, k = j + 1 → (m.afterSteps s j).attempt s = .done (m.afterSteps s k) ∧
        Arrives s (m.afterSteps s j) (m.afterSteps s k) := by
  induction k with
  | zero => exact ⟨enters.tidy ruled (Set.subset_univ _), fun j same => absurd same (by omega)⟩
  | succ k ih =>
      have running' : (m.afterSteps s k).isRunning = true := isRunning_of_step running
      obtain ⟨tidy, last⟩ := ih (fun j le => deep j (Nat.le_succ_of_le le)) running'
      have framed := afterSteps_framed lawful.isConfined enters.framed k
      have deep : m.callers.length ≤ (m.afterSteps s (k + 1)).depth := by
        rw [length_callers]
        exact deep (k + 1) (Nat.le_refl _)
      obtain ⟨done, tidy', arrives⟩ := tidy.step ruled lawful framed
        (room_of_came ruled (enters.came_of_last last)) deep running
      refine ⟨tidy', fun j same => ?_⟩
      obtain rfl : k = j := Nat.succ.inj same
      exact ⟨done, arrives⟩

omit ruled lawful enters in
theorem isRunning_afterSteps {j k : Nat} (running : (m.afterSteps s k).isRunning = true)
    (le : j ≤ k) : (m.afterSteps s j).isRunning = true := by
  induction k with
  | zero =>
      obtain rfl : j = 0 := by omega
      exact running
  | succ k ih =>
      rcases Nat.lt_succ_iff_lt_or_eq.1 (Nat.lt_succ_of_le le) with lt | rfl
      · exact ih (isRunning_of_step running) (Nat.le_of_lt_succ lt)
      · exact running

/-- The copies in front of a call were made one after the other by the activation that makes
the call. -/
theorem Enters.copies {k c : Nat} {i : Instruction}
    (deep : ∀ j ≤ k, m.depth ≤ (m.afterSteps s j).depth)
    (running : (m.afterSteps s k).isRunning = true)
    (fetched : s.program.fetch? (m.afterSteps s k).func (m.afterSteps s k).place = some i)
    (arguments : i.arguments? = some c) {d : Nat} (le : d ≤ c) :
    d ≤ k ∧ (m.afterSteps s (k - d)).frames = (m.afterSteps s k).frames ∧
      (m.afterSteps s (k - d)).func = (m.afterSteps s k).func ∧
      (m.afterSteps s (k - d)).base = (m.afterSteps s k).base ∧
      (m.afterSteps s (k - d)).place + d = (m.afterSteps s k).place := by
  obtain ⟨other, window, -⟩ := ((ruled _).allows _ _ fetched).window arguments
  have inside := window.le
  induction d with
  | zero => exact ⟨Nat.zero_le k, rfl, rfl, rfl, rfl⟩
  | succ d ih =>
      obtain ⟨past, frames, func, base, place⟩ := ih (by omega)
      obtain ⟨-, last⟩ := enters.tidy_afterSteps ruled lawful (k - d)
        (fun j le => deep j (by omega)) (isRunning_afterSteps running (Nat.sub_le k d))
      obtain ⟨j, next⟩ : ∃ j, k - d = j + 1 := by
        refine Nat.exists_eq_succ_of_ne_zero fun first => ?_
        have start : (m.afterSteps s (k - d)).place = 0 := by
          rw [first]
          exact enters.place
        omega
      obtain ⟨-, arrives⟩ := last j next
      obtain ⟨i', here, other'⟩ : ∃ i', s.program.fetch? (m.afterSteps s (k - d)).func
          (m.afterSteps s (k - d)).place = some i' ∧ i'.op ≠ .nop := by
        rw [func]
        cases d with
        | zero => exact ⟨i, fetched, other⟩
        | succ d =>
            obtain ⟨src, -, copy⟩ := window.copies (c - (d + 1)) (by omega)
            refine ⟨_, (congrArg _ (by omega)).trans copy, ?_⟩
            exact nofun
      obtain ⟨src, -, copy⟩ := window.copies (c - (d + 1)) (by omega)
      obtain ⟨frames', func', base', place'⟩ := arrives.of_copy
        (q := (m.afterSteps s k).place - (d + 1)) (by omega)
        (by rw [func]; exact (congrArg _ (by omega)).trans copy) here other'
      have before : k - (d + 1) = j := by omega
      rw [before]
      exact ⟨by omega, frames'.symm.trans frames, func'.symm.trans func, base'.symm.trans base,
        by omega⟩

variable {k c : Nat} {i : Instruction} (deep : ∀ j ≤ k, m.depth ≤ (m.afterSteps s j).depth)
  (running : (m.afterSteps s k).isRunning = true)
  (fetched : s.program.fetch? (m.afterSteps s k).func (m.afterSteps s k).place = some i)
  (arguments : i.arguments? = some c)

include deep running fetched arguments

/-- The same, from the first of them on. -/
theorem Enters.turn {q : Nat} (le : q ≤ c) :
    c ≤ k ∧ (m.afterSteps s (k - c + q)).frames = (m.afterSteps s k).frames ∧
      (m.afterSteps s (k - c + q)).func = (m.afterSteps s k).func ∧
      (m.afterSteps s (k - c + q)).base = (m.afterSteps s k).base ∧
      (m.afterSteps s (k - c + q)).place + c = (m.afterSteps s k).place + q := by
  obtain ⟨past, -⟩ := enters.copies ruled lawful deep running fetched arguments (Nat.le_refl c)
  have turn := enters.copies ruled lawful deep running fetched arguments (Nat.sub_le c q)
  rw [show k - (c - q) = k - c + q by omega] at turn
  obtain ⟨-, frames, func, base, place⟩ := turn
  exact ⟨past, frames, func, base, by omega⟩

/-- Each of them moves a value to the next register. -/
theorem Enters.moved {q : Nat} (lt : q < c) :
    let before := m.afterSteps s (k - c + q)
    let slot := (ledgers (m.afterSteps s k).func).room (m.afterSteps s k).place - c + q
    ∃ (src : Operand) (v : Value), src.mode ≠ .stack ∧
      s.program.fetch? before.func before.place =
        some (.binary .mov (.register (Int16.ofNat slot)) src) ∧
      load s src before.started = .ok v before.started ∧
      m.afterSteps s (k - c + q + 1) = (before.started.assigned slot v).advanced := by
  intro before slot
  obtain ⟨other, window, -⟩ := ((ruled _).allows _ _ fetched).window arguments
  have small := window.small
  have room := window.room
  have inside := window.le
  obtain ⟨past, -, func, -, place⟩ :=
    enters.turn ruled lawful deep running fetched arguments (Nat.le_of_lt lt)
  obtain ⟨src, plain, copy⟩ := window.copies q lt
  obtain ⟨-, last⟩ := enters.tidy_afterSteps ruled lawful (k - c + q + 1)
    (fun j le => deep j (by omega)) (isRunning_afterSteps running (by omega))
  have here : s.program.fetch? before.func before.place =
      some (.binary .mov (.register (Int16.ofNat slot)) src) := by
    have at_ : before.place = (m.afterSteps s k).place - c + q := by
      show (m.afterSteps s (k - c + q)).place = _
      omega
    rw [func, at_]
    exact copy
  obtain ⟨v, loads, moved⟩ := done_of_move plain (show slot < numberRange by omega)
    (last _ rfl).1 here
  exact ⟨src, v, plain, here, loads, moved⟩

/-- What the copies have moved is there when the call is made. -/
theorem Enters.delivers {q : Nat} (lt : q < c) :
    ∃ v, Delivers s (m.afterSteps s (k - c + q)) (m.afterSteps s k)
      ((ledgers (m.afterSteps s k).func).room (m.afterSteps s k).place - c + q) v := by
  obtain ⟨past, frames, func, base, -⟩ :=
    enters.turn ruled lawful deep running fetched arguments (Nat.le_of_lt lt)
  obtain ⟨src, v, plain, here, loads, moved⟩ :=
    enters.moved ruled lawful deep running fetched arguments lt
  have persists (d : Nat) (le : q + 1 + d ≤ c) : (m.afterSteps s (k - c + (q + 1 + d))).registers[
      (m.afterSteps s k).base +
        ((ledgers (m.afterSteps s k).func).room (m.afterSteps s k).place - c + q)]? = some v := by
    induction d with
    | zero =>
        have seated := (afterSteps_framed lawful.isConfined enters.framed (k - c + q + 1)).seated
        rw [moved] at seated
        show (m.afterSteps s (k - c + q + 1)).registers[_]? = some v
        rw [moved, ← base]
        exact holds_assigned ⟨seated.base_le, seated.top_le⟩
    | succ d ih =>
        obtain ⟨-, -, -, base', -⟩ := enters.turn ruled lawful deep running fetched arguments
          (show q + 1 + d ≤ c by omega)
        obtain ⟨-, v', -, -, -, moved⟩ := enters.moved ruled lawful deep running fetched arguments
          (q := q + 1 + d) (by omega)
        show (m.afterSteps s (k - c + (q + 1 + d) + 1)).registers[_]? = some v
        rw [moved, ← ih (by omega), ← base']
        exact keeps_assigned (by omega)
  have holds := persists (c - (q + 1)) (by omega)
  rw [show k - c + (q + 1 + (c - (q + 1))) = k by omega] at holds
  exact ⟨v, frames, func, base, ⟨src, plain, here, loads⟩, holds⟩

/-- What a call hands on is what the copies have moved, if nothing is above it. -/
theorem Enters.arrival : 0 < c ∧ c ≤ k ∧ ∃ frame slot,
    (m.afterSteps s k).frames.back? = some frame ∧
    (ledgers (m.afterSteps s k).func).params ≤ slot ∧
    (m.afterSteps s k).top = max frame.top ((m.afterSteps s k).base + slot + c) ∧
    ∀ q < c, (m.afterSteps s (k - c + q)).place + c = (m.afterSteps s k).place + q ∧
      ∃ v, Delivers s (m.afterSteps s (k - c + q)) (m.afterSteps s k) (slot + q) v ∧
        (frame.top ≤ (m.afterSteps s k).base + slot + c →
          (m.afterSteps s k).registers[(m.afterSteps s k).top - c + q]? = some v) := by
  obtain ⟨other, window, held⟩ := ((ruled _).allows _ _ fetched).window arguments
  have room := window.room
  obtain ⟨tidy, last⟩ := enters.tidy_afterSteps ruled lawful k deep running
  have filled := (enters.came_of_last last).filled window fetched other
  obtain ⟨frame, back, entry⟩ := exists_frame (isRunning_iff.1 running).2.1
  obtain ⟨-, low, high⟩ := tidy.levels
  rw [entry, held] at low high
  obtain ⟨past, -⟩ := enters.copies ruled lawful deep running fetched arguments (Nat.le_refl c)
  refine ⟨window.positive, past, frame, _ - c, back, Nat.le_sub_of_add_le room, by omega,
    fun q lt => ?_⟩
  obtain ⟨-, -, -, -, place⟩ :=
    enters.turn ruled lawful deep running fetched arguments (Nat.le_of_lt lt)
  obtain ⟨v, delivers⟩ := enters.delivers ruled lawful deep running fetched arguments lt
  refine ⟨place, v, delivers, fun le => ?_⟩
  rw [← delivers.holds]
  exact congrArg ((m.afterSteps s k).registers[·]?) (by omega)

end

/-- The run of a program enters its entry function. -/
theorem enters_begin {s : Setting} {m : Machine} (running : (m.begin s).isRunning = true) :
    Enters s (m.begin s) ∧ (m.begin s).depth = 1 := by
  have framed := begin_framed s m
  cases main : s.program.entry? with
  | none =>
      rw [begin_of_none m main] at running
      cases (isRunning_iff.1 running).2.2
  | some func =>
      by_cases room : 2 ≤ s.limits.operands
      · have begins := begin_of_le m main room
        refine ⟨⟨framed, ?_, ?_⟩, ?_⟩
        · rw [begins]
          rfl
        · rw [begins]
          rfl
        · rw [begins]
          rfl
      · rw [begin_of_lt m main (Nat.not_le.1 room)] at running
        cases (isRunning_iff.1 running).2.2

end Machine

/-- A function that has an instruction has a graph, whose parameters the ledger counts. -/
theorem Bundle.exists_graph {b : Bundle} {program : Program}
    (emitted : Program.ofBundle b = .ok program) {f q : Nat} {i : Instruction}
    (fetched : program.fetch? f q = some i) :
    ∃ g, b.graphs[f]? = some g ∧ (b.ledgers f).params = g.paramCount.toNat := by
  obtain ⟨-, -, size, -⟩ := ofBundle_ok emitted
  obtain ⟨chunk, found, -⟩ := Option.bind_eq_some_iff.1 fetched
  have inside : f < b.graphs.size := size ▸ (Array.getElem?_eq_some_iff.1 found).1
  refine ⟨_, Array.getElem?_eq_getElem inside, ?_⟩
  rw [ledgers, Array.getElem?_eq_getElem inside]
  rfl

namespace Crowded

def program : Program where
  chunks := #[
    #[.make .mov [.register 0, .constant 0], .make .mov [.register 1, .constant 1],
      .make .mov [.register 2, .constant 2], .make .call [.immediate 1, .immediate 3]],
    #[.make .mov [.register 0, .constant 3], .make .nativeCall [.immediate 0, .immediate 1]]]
  constants := bundle.constants
  entry := some 0

theorem emitted : Program.ofBundle bundle = .ok program := by
  have orderly : bundle.Orderly 65536 :=
    Draft.orderly_of_ofForest (fun _ id _ => id.toNat_lt) accepted
  rw [orderly.ofBundle_eq (by decide)]
  decide +kernel

end Crowded

open Machine in
/-- In every run of the program of a forest that is accepted, condensed or not, the `n`
instructions in front of a call with `n` arguments are copies that the activation has made to
registers of its frame that follow one another, none of which is a parameter's, and which hold
the values still. The top is behind the last of them, or where it was when the activation
began, if that is higher. So the call hands on the values in order, unless the activation
was itself handed more of them than there are registers up to the last. -/
theorem arrival_of_accepted {procedures : Registry} {sources : Array String}
    {forest : List SourceUnit} {b b' : Bundle}
    (accepted : Bundle.ofForest procedures sources forest = .ok b)
    (variant : b.Variant b') {program : Program} (emitted : Program.ofBundle b' = .ok program)
    {table : Array Procedure} (lawful : ∀ p ∈ table, p.Lawful) (limits : Limits) (m : Machine) :
    let s : Setting := ⟨limits, program, table⟩
    let run (k : Nat) : Machine := (m.begin s).afterSteps s k
    ∀ (k n : Nat) (i : Instruction), (run k).isRunning = true →
      program.fetch? (run k).func (run k).place = some i → i.arguments? = some n →
      0 < n ∧ n ≤ k ∧ ∃ g frame slot, b'.graphs[(run k).func]? = some g ∧
        (run k).frames.back? = some frame ∧ g.paramCount.toNat ≤ slot ∧
        (run k).top = max frame.top ((run k).base + slot + n) ∧
        ∀ q < n, (run (k - n + q)).place + n = (run k).place + q ∧
          ∃ v, Delivers s (run (k - n + q)) (run k) (slot + q) v ∧
            (frame.top ≤ (run k).base + slot + n →
              (run k).registers[(run k).top - n + q]? = some v) := by
  intro s run k n i running fetched arguments
  have orderly : b'.Orderly 65536 :=
    orderly_of_variant (fun _ id _ => id.toNat_lt) accepted variant
  have ruled : s.program.Ruled b'.ledgers := orderly.ruled emitted
  have lawful : s.Lawful := lawful
  obtain ⟨enters, depth⟩ := enters_begin (isRunning_afterSteps running (Nat.zero_le k))
  have deep (j : Nat) (le : j ≤ k) : (m.begin s).depth ≤ (run j).depth := by
    have opened := (isRunning_iff.1 (isRunning_afterSteps running le)).2.1
    rw [depth]
    exact Nat.pos_of_ne_zero fun size => opened (Array.eq_empty_of_size_eq_zero size)
  obtain ⟨g, graph, params⟩ := Bundle.exists_graph emitted fetched
  obtain ⟨positive, past, frame, slot, back, le, top, each⟩ :=
    enters.arrival ruled lawful deep running fetched arguments
  exact ⟨positive, past, g, frame, slot, graph, back, params ▸ le, top, each⟩

open Machine in
theorem arrival_of_sample :
    let s : Setting := ⟨⟨8, 4, 2, none⟩, Crowded.program, Procedure.standard⟩
    let run (k : Nat) : Machine := ((initial s.limits []).begin s).afterSteps s k
    (run 3).isRunning = true ∧
    (run 3).registers.extract ((run 3).top - 3) (run 3).top = #[.int 1, .int 2, .int 3] ∧
    ∃ frame slot, (run 3).frames.back? = some frame ∧
      (run 3).top = max frame.top ((run 3).base + slot + 3) ∧
      ∀ q < 3, ∃ v, Delivers s (run q) (run 3) (slot + q) v ∧
        (run 3).registers[(run 3).top - 3 + q]? = some v := by
  intro s run
  have running : (run 3).isRunning = true := by decide +kernel
  have back : (run 3).frames.back? = some ⟨0, 0, 0, 0⟩ := by decide +kernel
  obtain ⟨-, -, g, frame, slot, -, found, -, top, each⟩ :=
    arrival_of_accepted Crowded.accepted .plain Crowded.emitted Procedure.standard_lawful
      ⟨8, 4, 2, none⟩ (initial s.limits []) 3 3
      (.make .call [.immediate 1, .immediate 3]) running (by decide +kernel) (by decide +kernel)
  cases back.symm.trans found
  refine ⟨running, by decide +kernel, _, slot, back, top, fun q lt => ?_⟩
  obtain ⟨-, v, delivers, holds⟩ := each q lt
  rw [Nat.sub_self, Nat.zero_add] at delivers
  exact ⟨v, delivers, holds (Nat.zero_le _)⟩

/-! ### Arguments that are displaced -/

open Machine in
/-- A call may hand on something else than what was copied for it. `f` is called with three
arguments, the last of which is 3, so 7 is copied to a register below the top, and what `print`
gets is 3. -/
theorem arrival_of_crowded :
    let s : Setting := ⟨⟨8, 4, 2, none⟩, Crowded.program, Procedure.standard⟩
    let run (k : Nat) : Machine := ((initial s.limits []).begin s).afterSteps s k
    Bundle.ofForest (.ofTable Procedure.standard) #[Crowded.text] Crowded.forest =
      .ok Crowded.bundle ∧
    Program.ofBundle Crowded.bundle = .ok Crowded.program ∧ (run 5).isRunning = true ∧
    s.program.fetch? (run 5).func (run 5).place =
      some (.binary .nativeCall (.immediate 0) (.immediate 1)) ∧
    s.program.fetch? (run 4).func (run 4).place =
      some (.binary .mov (.register 0) (.constant 3)) ∧
    s.program.constants[3]? = some (.int 7) ∧ (run 5).base = (run 4).base ∧
    (run 5).registers[(run 5).base]? = some (.int 7) ∧
    (run 5).registers[(run 5).top - 1]? = some (.int 3) ∧
    (run 6).output = "3\n" := by
  refine ⟨Crowded.accepted, Crowded.emitted, ?_, ?_, ?_, ?_, ?_, ?_, ?_, ?_⟩ <;> decide +kernel

end RegisterCode
