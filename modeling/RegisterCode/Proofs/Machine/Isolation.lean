import RegisterCode.Proofs.Machine.Moves

/-!
A call and the return that matches it leave the caller's frame as it was. While
the frame that the call opened is on the stack (`Within`), nothing the callee
does reaches below the arguments it was given; and the step that takes the frame
off again is a return that gives the caller everything back (`GivesBack`).
-/

namespace RegisterCode

namespace Machine

/-- The bases of the frames above a call, innermost first: none is below `floor`,
and the outermost is `floor` itself. -/
def Above (floor : Nat) : Nat → List Frame → Prop
  | base, [] => base = floor
  | base, frame :: outer => floor ≤ base ∧ Above floor frame.base outer

theorem Above.le {floor base : Nat} {frames : List Frame} (h : Above floor base frames) :
    floor ≤ base := by
  cases frames with
  | nil => exact Nat.le_of_eq h.symm
  | cons frame outer => exact h.1

/-- What a call keeps of the machine it is made in. -/
def kept (m : Machine) : Frame := ⟨m.func, m.place + 1, m.base, m.top⟩

/-- What `n` has on its stacks on top of what the call left there: the frames
and the saved values, innermost first. -/
structure Piled (m : Machine) (argc : Nat) (n : Machine) (frames : List Frame)
    (values : List Value) : Prop where
  frames_eq : n.frames.toList.reverse = frames ++ m.kept :: m.frames.toList.reverse
  operands_eq : n.operands.toList.reverse =
    values ++ .bool m.flag :: .int m.status.code :: m.operands.toList.reverse
  length_eq : values.length = 2 * frames.length
  above : Above (m.top - argc) n.base frames

/-- The frame opened by a call with `argc` arguments is still open. The machine
`m` is the one in which the call had just read its operands. -/
structure Within (m : Machine) (argc : Nat) (n : Machine) : Prop where
  piled : ∃ frames values, Piled m argc n frames values
  below : ∀ i < m.top - argc, n.registers[i]? = m.registers[i]?

/-- The caller has everything back, and the value in the place of its first
argument. -/
structure Restored (m : Machine) (argc : Nat) (v : Value) (back : Machine) : Prop where
  func : back.func = m.func
  place : back.place = m.place + 1
  base : back.base = m.base
  top : back.top = m.top
  status : back.status = m.status
  flag : back.flag = m.flag
  frames : back.frames = m.frames
  operands : back.operands = m.operands
  below : ∀ i < m.top - argc, back.registers[i]? = m.registers[i]?
  answer : back.registers[m.top - argc]? = some v

/-- The step from `n` is a return that gives the caller everything back,
together with the value that it loads. -/
def GivesBack (s : Setting) (m : Machine) (argc : Nat) (n back : Machine) : Prop :=
  ∃ i v o, s.program.fetch? n.func n.place = some i ∧ i.op = .ret ∧
    result s i { n with steps := n.steps + 1 } = .ok v o ∧ Restored m argc v back

/-! ### One step -/

theorem toList_push_reverse {α : Type} (xs : Array α) (x : α) :
    (xs.push x).toList.reverse = x :: xs.toList.reverse := by
  simp

namespace Within

variable {s : Setting} {m n : Machine} {argc : Nat}

theorem depth_lt (h : Within m argc n) : m.depth < n.depth := by
  obtain ⟨frames, values, piled⟩ := h.piled
  have length := congrArg List.length piled.frames_eq
  simp only [List.length_reverse, List.length_append, List.length_cons,
    Array.length_toList] at length
  rw [depth, depth]
  omega

theorem congr {n' : Machine} (h : Within m argc n) (registers : n'.registers = n.registers)
    (frames : n'.frames = n.frames) (operands : n'.operands = n.operands)
    (base : n'.base = n.base) : Within m argc n' := by
  obtain ⟨inner, values, piled⟩ := h.piled
  refine ⟨⟨inner, values, ?_, ?_, piled.length_eq, ?_⟩, ?_⟩
  · rw [frames]
    exact piled.frames_eq
  · rw [operands]
    exact piled.operands_eq
  · rw [base]
    exact piled.above
  · rw [registers]
    exact h.below

/-- Work inside a frame above the call stays above the call. -/
theorem of_inFrame {n' : Machine} (h : Within m argc n) (seated : Seated n)
    (work : InFrame n n') : Within m argc n' := by
  obtain ⟨-, same⟩ := work seated
  obtain ⟨inner, values, piled⟩ := h.piled
  refine ⟨⟨inner, values, ?_, ?_, piled.length_eq, ?_⟩, fun i hi => ?_⟩
  · rw [same.frames]
    exact piled.frames_eq
  · rw [same.operands]
    exact piled.operands_eq
  · rw [same.base]
    exact piled.above
  · rw [same.below i (Nat.lt_of_lt_of_le hi piled.above.le)]
    exact h.below i hi

/-- A further call opens its frame above. -/
theorem called {func argc' : Nat} (h : Within m argc n) (seated : Seated n)
    (callable : Callable s func argc' n) : Within m argc (n.called func argc') := by
  obtain ⟨inner, values, piled⟩ := h.piled
  have argc_le := callable.argc_le
  have base_le := seated.base_le
  have floor_le := piled.above.le
  refine ⟨⟨n.kept :: inner, .bool n.flag :: .int n.status.code :: values,
    ?_, ?_, ?_, ?_, piled.above⟩, h.below⟩
  · rw [Machine.called, toList_push_reverse, piled.frames_eq]
    rfl
  · rw [Machine.called, toList_push_reverse, toList_push_reverse, piled.operands_eq]
    rfl
  · simp only [List.length_cons, piled.length_eq]
    omega
  · show m.top - argc ≤ n.top - argc'
    omega

/-- A return from a frame above leads to a frame above, or it is the return
from the call itself. -/
theorem returned {frames : Array Frame} {frame : Frame} {saved : Array Value} {flag : Bool}
    (h : Within m argc n) (v : Value) (inside : n.base < n.registers.size)
    (hframes : n.frames = frames.push frame)
    (hoperands : n.operands = (saved.push (.int 0)).push (.bool flag)) :
    Within m argc (n.returned v frame saved flag inside) ∨
      (frames = m.frames ∧ frame = m.kept ∧ saved = m.operands ∧ flag = m.flag ∧
        n.base = m.top - argc) := by
  obtain ⟨inner, values, piled⟩ := h.piled
  have frames_eq := piled.frames_eq
  have operands_eq := piled.operands_eq
  have length_eq := piled.length_eq
  rw [hframes, toList_push_reverse] at frames_eq
  rw [hoperands, toList_push_reverse, toList_push_reverse] at operands_eq
  cases inner with
  | nil =>
      right
      obtain rfl : values = [] := List.length_eq_zero_iff.1 length_eq
      simp only [List.nil_append, List.cons.injEq, Value.bool.injEq] at frames_eq operands_eq
      exact ⟨Array.toList_inj.1 (List.reverse_inj.1 frames_eq.2), frames_eq.1,
        Array.toList_inj.1 (List.reverse_inj.1 operands_eq.2.2), operands_eq.1, piled.above⟩
  | cons called outer =>
      left
      obtain ⟨x, y, values, rfl⟩ : ∃ x y rest, values = x :: y :: rest := by
        match values, length_eq with
        | x :: y :: rest, _ => exact ⟨x, y, rest, rfl⟩
      simp only [List.cons_append, List.cons.injEq] at frames_eq operands_eq
      obtain ⟨rfl, frames_eq⟩ := frames_eq
      refine ⟨⟨outer, values, ?_, operands_eq.2.2, ?_, piled.above.2⟩, fun i hi => ?_⟩
      · rw [Machine.returned, hframes, Array.pop_push]
        exact frames_eq
      · simp only [List.length_cons] at length_eq
        omega
      · have floor_le := piled.above.1
        have other : n.base ≠ i := by omega
        rw [Machine.returned, Array.getElem?_set_ne inside other]
        exact h.below i hi

/-- A return gives the caller of the call everything back, or it leads to a
frame above the call, or it fails and changes nothing. -/
theorem ret (h : Within m argc n) (framed : Framed s.limits n) (opened : n.frames ≠ #[])
    (status : m.status = .ok) (v : Value) :
    (∃ fault, Machine.ret v n = .error fault n) ∨
      ∃ n', Machine.ret v n = .ok () n' ∧ (Within m argc n' ∨ Restored m argc v n') := by
  by_cases inside : n.base < n.registers.size
  · right
    obtain ⟨frames, frame, saved, flag, hframes, hoperands⟩ := framed.split opened
    refine ⟨_, ret_of_lt v inside hframes hoperands, ?_⟩
    rcases h.returned v inside hframes hoperands with still | ⟨rfl, rfl, rfl, rfl, base⟩
    · exact .inl still
    · right
      refine ⟨rfl, rfl, rfl, rfl, status.symm, rfl, ?_, rfl, fun i hi => ?_, ?_⟩
      · rw [Machine.returned, hframes, Array.pop_push]
      · have other : n.base ≠ i := by omega
        rw [Machine.returned, Array.getElem?_set_ne inside other]
        exact h.below i hi
      · rw [Machine.returned, ← base]
        exact Array.getElem?_set_self inside
  · exact .inl ⟨_, ret_of_le v (Nat.not_lt.1 inside)⟩

/-- A call of a function stays above the call that is looked at. -/
theorem call {func argc' : Nat} (h : Within m argc n) (seated : Seated n) :
    Within m argc (leaves (Machine.call s func argc') n) := by
  by_cases callable : Callable s func argc' n
  · rw [leaves_of_ok (call_of_callable callable)]
    exact h.called seated callable
  · obtain ⟨fault, fails⟩ := call_of_not_callable callable
    rw [leaves_of_error fails]
    exact h

/-- An instruction that fails does not close the frame. -/
theorem dispatch_error (confined : s.IsConfined) (h : Within m argc n)
    (framed : Framed s.limits n) (opened : n.frames ≠ #[]) (status : m.status = .ok)
    {i : Instruction} {fault : Fault} {n' : Machine}
    (error : dispatch s i n = .error fault n') : Within m argc n' := by
  by_cases isCall : i.op = .call
  · rw [dispatch_call isCall] at error
    rcases bind_eq_error_iff.1 error with unread | ⟨target, o, loaded, fails⟩
    · exact h.of_inFrame framed.seated ((callee_lowered s i).error unread).inFrame
    · have lowered := (callee_lowered s i).ok loaded
      have seated := (lowered.inFrame framed.seated).1
      exact leaves_of_error fails ▸ (h.of_inFrame framed.seated lowered.inFrame).call seated
  · by_cases isRet : i.op = .ret
    · rw [dispatch_ret isRet] at error
      rcases bind_eq_error_iff.1 error with unread | ⟨v, o, loaded, fails⟩
      · exact h.of_inFrame framed.seated ((result_lowered s i).error unread).inFrame
      · have lowered := (result_lowered s i).ok loaded
        have inside := h.of_inFrame framed.seated lowered.inFrame
        have opened' : o.frames ≠ #[] := by
          rw [lowered.same]
          exact opened
        rcases inside.ret (framed.of_inFrame lowered.inFrame) opened' status v with
          ⟨_, same⟩ | ⟨_, ok, -⟩
        · rw [same] at fails
          cases fails
          exact inside
        · rw [ok] at fails
          cases fails
    · exact h.of_inFrame framed.seated ((dispatch_inFrame confined isCall isRet).error error)

/-- An instruction that succeeds leaves the frame open, or it is a return that
gives the caller everything back. -/
theorem dispatch_ok (confined : s.IsConfined) (h : Within m argc n)
    (framed : Framed s.limits n) (opened : n.frames ≠ #[]) (status : m.status = .ok)
    {i : Instruction} {n' : Machine} (ok : dispatch s i n = .ok () n') :
    Within m argc n' ∨
      ∃ v o, i.op = .ret ∧ result s i n = .ok v o ∧ Restored m argc v n' := by
  by_cases isCall : i.op = .call
  · left
    rw [dispatch_call isCall] at ok
    obtain ⟨target, o, loaded, calls⟩ := bind_eq_ok_iff.1 ok
    have lowered := (callee_lowered s i).ok loaded
    have seated := (lowered.inFrame framed.seated).1
    exact leaves_of_ok calls ▸ (h.of_inFrame framed.seated lowered.inFrame).call seated
  · by_cases isRet : i.op = .ret
    · rw [dispatch_ret isRet] at ok
      obtain ⟨v, o, loaded, returns⟩ := bind_eq_ok_iff.1 ok
      have lowered := (result_lowered s i).ok loaded
      have opened' : o.frames ≠ #[] := by
        rw [lowered.same]
        exact opened
      rcases (h.of_inFrame framed.seated lowered.inFrame).ret
          (framed.of_inFrame lowered.inFrame) opened' status v with ⟨_, fails⟩ | ⟨o', ok', cases_⟩
      · rw [fails] at returns
        cases returns
      · rw [ok'] at returns
        cases returns
        exact cases_.imp id fun restored => ⟨v, o, isRet, loaded, restored⟩
    · exact .inl (h.of_inFrame framed.seated ((dispatch_inFrame confined isCall isRet).ok ok))

/-- One step: the frame that the call opened stays, or the step is a return
that gives the caller everything back. -/
theorem step (confined : s.IsConfined) (h : Within m argc n) (framed : Framed s.limits n)
    (status : m.status = .ok) :
    Within m argc (n.step s).2 ∨ GivesBack s m argc n (n.step s).2 := by
  have started : Framed s.limits { n with steps := n.steps + 1 } :=
    framed.congr rfl rfl rfl rfl rfl
  have here : Within m argc { n with steps := n.steps + 1 } := h.congr rfl rfl rfl rfl
  have attempted := attempted s n
  rw [Machine.step]
  generalize n.attempt s = outcome at attempted
  cases attempted with
  | ended stopped => exact .inl h
  | exhausted reached => exact .inl (h.congr rfl rfl rfl rfl)
  | lost running below none => exact .inl (h.congr rfl rfl rfl rfl)
  | @done i n' running below fetched ok =>
      obtain ⟨-, opened, -⟩ := isRunning_iff.1 running
      rcases here.dispatch_ok confined started opened status ok with
        still | ⟨v, o, isRet, loaded, restored⟩
      · exact .inl still
      · exact .inr ⟨i, v, o, fetched, isRet, loaded, restored⟩
  | @failed i fault n' running below fetched error =>
      obtain ⟨-, opened, -⟩ := isRunning_iff.1 running
      exact .inl ((here.dispatch_error confined started opened status error).congr rfl rfl rfl rfl)

end Within

/-! ### Runs -/

/-- The machine after a number of steps. -/
def afterSteps (s : Setting) (m : Machine) : Nat → Machine
  | 0 => m
  | n + 1 => ((m.afterSteps s n).step s).2

theorem afterSteps_framed {s : Setting} (confined : s.IsConfined) {m : Machine}
    (h : Framed s.limits m) (n : Nat) : Framed s.limits (m.afterSteps s n) := by
  induction n with
  | zero => exact h
  | succ n ih => exact step_framed confined ih

/-- As long as the depth has not come back to that of the call, the frame that
the call opened is there. -/
theorem Within.afterSteps {s : Setting} (confined : s.IsConfined) {m n : Machine} {argc : Nat}
    (h : Within m argc n) (framed : Framed s.limits n) (status : m.status = .ok) (k : Nat)
    (deeper : ∀ j ≤ k, (n.afterSteps s j).depth ≠ m.depth) :
    Within m argc (n.afterSteps s k) := by
  induction k with
  | zero => exact h
  | succ k ih =>
      have before := ih fun j hj => deeper j (Nat.le_succ_of_le hj)
      rcases before.step confined (afterSteps_framed confined framed k) status with
        still | ⟨_, _, _, _, _, _, restored⟩
      · exact still
      · refine absurd ?_ (deeper (k + 1) (Nat.le_refl _))
        rw [depth, depth]
        exact congrArg Array.size restored.frames

/-- A call that succeeds opens its frame on top of the machine that had loaded
the operands. -/
theorem within_of_call {s : Setting} {func argc : Nat} {m n : Machine}
    (h : call s func argc m = .ok () n) : Within m argc n := by
  obtain ⟨-, rfl⟩ := call_ok h
  refine ⟨⟨[], [], ?_, ?_, rfl, rfl⟩, fun _ _ => rfl⟩
  · rw [called, toList_push_reverse]
    rfl
  · rw [called, toList_push_reverse, toList_push_reverse]
    rfl

/-- Let a call succeed in a machine that the host brought about, and let `loaded`
be the machine just after the call had loaded its operands. If the depth comes
back to what it was there, then the step in which it first does so is a return,
and after it the caller has everything back: what it had but for the registers
of its arguments, the first of which holds the value returned. -/
theorem call_return_symmetry {s : Setting} (confined : s.IsConfined) {m : Machine}
    (reachable : Reachable s m) {i : Instruction} {func argc : Nat} {loaded inside : Machine}
    (fetched : s.program.fetch? m.func m.place = some i) (isCall : i.op = .call)
    (loads : callee s i { m with steps := m.steps + 1 } = .ok (func, argc) loaded)
    (done : m.attempt s = .done inside) {k : Nat}
    (back : (inside.afterSteps s k).depth = loaded.depth)
    (first : ∀ j < k, (inside.afterSteps s j).depth ≠ loaded.depth) :
    ∃ j, k = j + 1 ∧
      GivesBack s loaded argc (inside.afterSteps s j) (inside.afterSteps s k) := by
  obtain ⟨input, moves, rfl⟩ := reachable
  have framed := afterMoves_framed confined (.initial s.limits input) moves
  have attempted := attempted s ((initial s.limits input).afterMoves s moves)
  have framed' := step_framed confined framed
  generalize (initial s.limits input).afterMoves s moves = m at *
  rw [step, done] at framed'
  rw [done] at attempted
  cases attempted with
  | @done i' n running below fetched' ok =>
      obtain rfl : i = i' := Option.some.inj (fetched.symm.trans fetched')
      obtain ⟨-, -, status⟩ := isRunning_iff.1 running
      have lowered := (callee_lowered s i).ok loads
      have status' : loaded.status = .ok := by
        rw [lowered.same]
        exact status
      rw [dispatch_call isCall, bind_of_ok loads] at ok
      have within := within_of_call ok
      cases k with
      | zero => exact absurd back (Nat.ne_of_gt within.depth_lt)
      | succ j =>
          refine ⟨j, rfl, ?_⟩
          have before := within.afterSteps confined framed' status' j
            fun l hl => first l (Nat.lt_succ_of_le hl)
          rcases before.step confined (afterSteps_framed confined framed' j) status' with
            still | gives
          · exact absurd back (Nat.ne_of_gt still.depth_lt)
          · exact gives

/-- An entry function that pushes two values and calls a function with one
argument, which pushes a value of its own and returns it. -/
def pushingCall : Setting where
  limits := ⟨4, 4, 2, none⟩
  program := {
    chunks := #[
      #[.make .push [.immediate 5], .make .push [.immediate 7],
        .make .call [.immediate 1, .immediate 1]],
      #[.make .push [.immediate 1], .make .ret [.stack]]]
    constants := #[]
    entry := some 0 }
  procedures := Procedure.standard

theorem pushingCall_gives_back :
    let m := (initial pushingCall.limits []).afterMoves pushingCall [.begin, .step, .step]
    let loaded := { m with steps := m.steps + 1 }
    ∃ inside, m.attempt pushingCall = .done inside ∧
      ∃ j, 2 = j + 1 ∧ GivesBack pushingCall loaded 1
        (inside.afterSteps pushingCall j) (inside.afterSteps pushingCall 2) :=
  ⟨_, rfl, call_return_symmetry (s := pushingCall) standard_isConfined ⟨[], [.begin, .step, .step], rfl⟩
    rfl rfl rfl rfl rfl (by decide)⟩

end Machine

end RegisterCode
