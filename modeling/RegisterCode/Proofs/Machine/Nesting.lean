import RegisterCode.Proofs.Machine.Procedures

/-!
The shape that the machine keeps whatever it executes: the register file has
its full size, the frames nest inside it, and the operand stack holds one status
and one flag for each open frame (`Framed`). Calls keep it (`Framed.called`), and
so do returns (`Framed.returned`).
-/

namespace RegisterCode

namespace Machine

/-! ### Calls and returns -/

theorem saveSpecials_of_le {limits : Limits} {m : Machine}
    (h : m.operands.size + 2 ≤ limits.operands) :
    saveSpecials limits m = .ok () { m with
      operands := (m.operands.push (.int m.status.code)).push (.bool m.flag) } :=
  if_neg (Nat.not_lt.2 h)

theorem saveSpecials_of_lt {limits : Limits} {m : Machine}
    (h : limits.operands < m.operands.size + 2) :
    saveSpecials limits m = .error .operandStackLimit m :=
  if_pos h

theorem restoreSpecials_of_push {m : Machine} {saved : Array Value} {b : Bool}
    (h : m.operands = (saved.push (.int 0)).push (.bool b)) :
    restoreSpecials m = .ok () { m with operands := saved, flag := b, status := .ok } := by
  have code : Status.ofCode? 0 = some .ok := by decide
  simp [restoreSpecials, bind_apply, need, h, code, Value.truthy?]

/-- The bounds that a call has to respect. -/
structure Callable (s : Setting) (func argc : Nat) (m : Machine) : Prop where
  func_lt : func < s.program.chunks.size
  depth_lt : m.frames.size < s.limits.depth
  argc_le : argc ≤ m.top - m.base
  operands_le : m.operands.size + 2 ≤ s.limits.operands

/-- The machine in the frame that a call opens. -/
def called (func argc : Nat) (m : Machine) : Machine :=
  { m with
    operands := (m.operands.push (.int m.status.code)).push (.bool m.flag)
    frames := m.frames.push ⟨m.func, m.place + 1, m.base, m.top⟩
    base := m.top - argc
    func := func
    place := 0 }

theorem call_of_callable {s : Setting} {func argc : Nat} {m : Machine}
    (h : Callable s func argc m) : call s func argc m = .ok () (m.called func argc) := by
  simp [call, require, bind_apply, h.func_lt, h.depth_lt, h.argc_le,
    saveSpecials_of_le h.operands_le, called]

theorem call_of_not_callable {s : Setting} {func argc : Nat} {m : Machine}
    (h : ¬ Callable s func argc m) : ∃ fault, call s func argc m = .error fault m := by
  by_cases func_lt : func < s.program.chunks.size
  · by_cases depth_lt : m.frames.size < s.limits.depth
    · by_cases argc_le : argc ≤ m.top - m.base
      · have full : s.limits.operands < m.operands.size + 2 :=
          Nat.not_le.1 fun operands_le => h ⟨func_lt, depth_lt, argc_le, operands_le⟩
        exact ⟨_, by simp [call, require, bind_apply, func_lt, depth_lt, argc_le,
          saveSpecials_of_lt full]; rfl⟩
      · exact ⟨_, by simp [call, require, bind_apply, func_lt, depth_lt, argc_le]; rfl⟩
    · exact ⟨_, by simp [call, require, bind_apply, func_lt, depth_lt]; rfl⟩
  · exact ⟨_, by simp [call, require, bind_apply, func_lt]; rfl⟩

theorem call_ok {s : Setting} {func argc : Nat} {m n : Machine}
    (h : call s func argc m = .ok () n) : Callable s func argc m ∧ n = m.called func argc := by
  by_cases callable : Callable s func argc m
  · rw [call_of_callable callable] at h
    cases h
    exact ⟨callable, rfl⟩
  · obtain ⟨fault, fails⟩ := call_of_not_callable callable
    rw [fails] at h
    cases h

/-- The machine back in the frame that a call was made from. -/
def returned (m : Machine) (v : Value) (frame : Frame) (saved : Array Value) (flag : Bool)
    (h : m.base < m.registers.size) : Machine :=
  { m with
    registers := m.registers.set m.base v
    operands := saved
    frames := m.frames.pop
    func := frame.func
    place := frame.place
    base := frame.base
    top := frame.top
    status := .ok
    flag := flag }

theorem ret_of_lt {m : Machine} {frames : Array Frame} {frame : Frame} {saved : Array Value}
    {flag : Bool} (v : Value) (h : m.base < m.registers.size)
    (hframes : m.frames = frames.push frame)
    (hoperands : m.operands = (saved.push (.int 0)).push (.bool flag)) :
    ret v m = .ok () (m.returned v frame saved flag h) := by
  rw [ret, bind_of_ok (get_apply m), bind_of_ok (write_of_lt v h)]
  have back : need .noCaller m.frames.back? = (pure frame : Action Frame) := by
    rw [hframes, Array.back?_push, need]
  simp only [bind_apply, get_apply, back, pure_apply, modify_apply]
  exact restoreSpecials_of_push hoperands

theorem ret_of_le {m : Machine} (v : Value) (h : m.registers.size ≤ m.base) :
    ret v m = .error .registerLimit m := by
  rw [ret, bind_of_ok (get_apply m), bind_of_error (write_of_le v h)]

/-! ### The shape -/

/-- The frames nest: each saved base is at most the base of the frame that was
called from it, which is at most the saved top. The innermost frame comes first;
`base` and `top` are those of the frame that it opened. -/
def Nested (limit : Nat) : Nat → Nat → List Frame → Prop
  | base, top, [] => base ≤ top ∧ top ≤ limit
  | base, top, frame :: outer =>
    base ≤ top ∧ top ≤ limit ∧ frame.base ≤ base ∧ base ≤ frame.top ∧
      Nested limit frame.base frame.top outer

/-- What the operand stack holds for callers with these flags. -/
def specials (flags : List Bool) : List Value :=
  flags.flatMap fun flag => [.int 0, .bool flag]

/-- The shape of the machine at any time. -/
structure Framed (limits : Limits) (m : Machine) : Prop where
  size : m.registers.size = limits.registers
  nested : Nested limits.registers m.base m.top m.frames.toList.reverse
  saved : ∃ flags : List Bool, flags.length = m.depth ∧ m.operands.toList = specials flags
  operands_le : m.operands.size ≤ limits.operands
  depth_le : m.depth ≤ max 1 limits.depth

theorem Nested.bounds {limit base top : Nat} {frames : List Frame}
    (h : Nested limit base top frames) : base ≤ top ∧ top ≤ limit := by
  cases frames with
  | nil => exact h
  | cons frame outer => exact ⟨h.1, h.2.1⟩

theorem Nested.mono {limit base top top' : Nat} {frames : List Frame}
    (h : Nested limit base top frames) (base_le : base ≤ top') (top_le : top' ≤ limit) :
    Nested limit base top' frames := by
  cases frames with
  | nil => exact ⟨base_le, top_le⟩
  | cons frame outer => exact ⟨base_le, top_le, h.2.2⟩

theorem specials_concat (flags : List Bool) (flag : Bool) :
    specials (flags ++ [flag]) = specials flags ++ [.int 0, .bool flag] := by
  simp [specials]

theorem length_specials (flags : List Bool) : (specials flags).length = 2 * flags.length := by
  induction flags with
  | nil => rfl
  | cons flag flags ih =>
      simp only [specials, List.flatMap_cons, List.length_append, List.length_cons] at ih ⊢
      rw [ih]
      simp
      omega

namespace Framed

variable {limits : Limits} {m : Machine}

theorem seated (h : Framed limits m) : Seated m :=
  ⟨h.nested.bounds.1, h.size ▸ h.nested.bounds.2⟩

/-- Work inside the frame does not change the shape. -/
theorem of_inFrame {n : Machine} (h : Framed limits m) (step : InFrame m n) :
    Framed limits n := by
  obtain ⟨seated, same⟩ := step h.seated
  have size : n.registers.size = limits.registers := same.size.trans h.size
  refine ⟨size, ?_, ?_, ?_, ?_⟩
  · rw [same.frames, same.base]
    exact h.nested.mono (same.base ▸ seated.base_le) (size ▸ seated.top_le)
  · rw [depth, same.frames, same.operands]
    exact h.saved
  · rw [same.operands]
    exact h.operands_le
  · rw [depth, same.frames]
    exact h.depth_le

/-- What belongs to no frame and to no caller is free to change. -/
theorem congr {n : Machine} (h : Framed limits m) (registers : n.registers = m.registers)
    (frames : n.frames = m.frames) (operands : n.operands = m.operands)
    (base : n.base = m.base) (top : n.top = m.top) : Framed limits n := by
  refine ⟨?_, ?_, ?_, ?_, ?_⟩
  · rw [registers]
    exact h.size
  · rw [frames, base, top]
    exact h.nested
  · rw [depth, frames, operands]
    exact h.saved
  · rw [operands]
    exact h.operands_le
  · rw [depth, frames]
    exact h.depth_le

theorem initial (limits : Limits) (input : List UInt8) :
    Framed limits (Machine.initial limits input) where
  size := Array.size_replicate
  nested := ⟨Nat.le_refl _, Nat.zero_le _⟩
  saved := ⟨[], rfl, rfl⟩
  operands_le := Nat.zero_le _
  depth_le := Nat.zero_le _

/-- Opening a frame with a status that is fine. -/
theorem called {s : Setting} {func argc : Nat} (h : Framed s.limits m)
    (callable : Callable s func argc m) (status : m.status = .ok) :
    Framed s.limits (m.called func argc) := by
  have bounds := h.nested.bounds
  have argc_le := callable.argc_le
  have base_le : m.base ≤ m.top - argc := by omega
  obtain ⟨flags, length, saved⟩ := h.saved
  refine ⟨h.size, ?_, ⟨flags ++ [m.flag], ?_, ?_⟩, ?_, ?_⟩
  · simp only [Machine.called, Array.toList_push, List.reverse_append, List.reverse_cons,
      List.reverse_nil, List.nil_append, List.singleton_append]
    exact ⟨Nat.sub_le _ _, bounds.2, base_le, Nat.sub_le _ _, h.nested⟩
  · simp only [Machine.called, depth, Array.size_push, List.length_append, List.length_cons,
      List.length_nil] at length ⊢
    omega
  · rw [specials_concat, ← saved]
    simp [Machine.called, status, Status.code]
  · simp only [Machine.called, Array.size_push]
    exact callable.operands_le
  · have depth_lt := callable.depth_lt
    simp only [Machine.called, depth, Array.size_push]
    omega

end Framed

theorem exists_concat {α : Type} {n : Nat} {xs : List α} (h : xs.length = n + 1) :
    ∃ rest last, xs = rest ++ [last] := by
  have nonempty : xs ≠ [] := by
    intro none
    rw [none] at h
    cases h
  exact ⟨xs.dropLast, xs.getLast nonempty, (List.dropLast_concat_getLast nonempty).symm⟩

/-- With a frame open, the innermost one and what it saved can be split off. -/
theorem Framed.split {limits : Limits} {m : Machine} (h : Framed limits m)
    (open_ : m.frames ≠ #[]) :
    ∃ (frames : Array Frame) (frame : Frame) (saved : Array Value) (flag : Bool),
      m.frames = frames.push frame ∧
      m.operands = (saved.push (.int 0)).push (.bool flag) := by
  obtain ⟨flags, length, saved⟩ := h.saved
  obtain ⟨frames, frame, hframes⟩ := Array.eq_push_of_size_ne_zero
    (fun size => open_ (Array.eq_empty_of_size_eq_zero size))
  rw [depth, hframes, Array.size_push] at length
  obtain ⟨flags, flag, rfl⟩ := exists_concat length
  refine ⟨frames, frame, (specials flags).toArray, flag, hframes, ?_⟩
  rw [specials_concat] at saved
  apply Array.toList_inj.1
  rw [saved]
  simp

/-- Going back to the caller gives its shape back. -/
theorem Framed.returned {limits : Limits} {m : Machine} {frames : Array Frame} {frame : Frame}
    {saved : Array Value} {flag : Bool} (h : Framed limits m) (v : Value)
    (inside : m.base < m.registers.size) (hframes : m.frames = frames.push frame)
    (hoperands : m.operands = (saved.push (.int 0)).push (.bool flag)) :
    Framed limits (m.returned v frame saved flag inside) := by
  obtain ⟨flags, length, saved_eq⟩ := h.saved
  have nested := h.nested
  have depth_le := h.depth_le
  have operands_le := h.operands_le
  rw [hframes] at nested
  rw [depth, hframes, Array.size_push] at length depth_le
  rw [hoperands] at saved_eq operands_le
  simp only [Array.size_push] at operands_le
  obtain ⟨flags, last, rfl⟩ := exists_concat length
  simp only [Array.toList_push, List.reverse_append, List.reverse_cons,
    List.reverse_nil, List.nil_append, List.singleton_append] at nested
  refine ⟨(Array.size_set inside).trans h.size, ?_, ⟨flags, ?_, ?_⟩, ?_, ?_⟩
  · simp only [Machine.returned, hframes, Array.pop_push]
    exact nested.2.2.2.2
  · simp only [List.length_append, List.length_cons, List.length_nil] at length
    simp only [Machine.returned, depth, hframes, Array.pop_push]
    omega
  · rw [specials_concat] at saved_eq
    simp only [Array.toList_push, List.append_assoc, List.singleton_append] at saved_eq
    exact (List.append_inj' saved_eq rfl).1
  · simp only [Machine.returned]
    omega
  · simp only [Machine.returned, depth, hframes, Array.pop_push]
    omega

end Machine

end RegisterCode
