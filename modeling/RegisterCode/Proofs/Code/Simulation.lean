import RegisterCode.Proofs.Code.Calls

/-!
A machine that executes the code of listings does what the journey through the
listings does. The one step (`Match.followed`) is put together from the kinds of
steps; from it, by induction on the journey, follows what a completed run comes
to (`Match.finished`).
-/

namespace RegisterCode

open Machine Tracked

variable {s : Setting} {c : Chart} {l : Listing} {j k : Journey} {x z : Tracked} {n : Nat}

/-- One step of the journey. -/
theorem Match.followed (linked : Linked s c) (h : Match s c l j x) {step : Step}
    (found : l.steps[j.visit.pos]? = some step) :
    Followed s c l step x (j.act c l step) := by
  have legal := (h.orderly linked).legal _ _ found
  cases legal with
  | copy t sound => exact followed_copy linked h found sound
  | @neg t a sound =>
      by_cases same : Address.temp t = a
      · subst same
        exact followed_neg_self linked h found
      · exact followed_neg linked h found sound same
  | binary t op sound sound' => exact followed_binary linked h found sound sound'
  | nop => exact followed_nop linked h found
  | savePatch => exact followed_marker h found (by decide)
  | shufflePatch => exact followed_marker h found (by decide)
  | patchJump => exact followed_marker h found (by decide)
  | patchJumpElse => exact followed_marker h found (by decide)
  | condensed => exact followed_marker h found (by decide)
  | jump => exact followed_jump linked h found
  | ret sound => exact followed_ret linked h found sound
  | jumpElse sound => exact followed_jumpElse linked h found sound
  | call named known some => exact followed_call linked h found named known some
  | nativeCall named known some => exact followed_nativeCall linked h found named known some

/-! ### Whole journeys -/

/-- A journey that comes to its end: with the value that the entry function
returns or with a fault, and with the world it leaves. -/
inductive Journey.Finishes (c : Chart) : Journey → Except Fault Value → World → Prop where
  | finished {j : Journey} {v : Value} {w : World} (last : j.step c = .finished v w) :
    Finishes c j (.ok v) w
  | failed {j : Journey} {fault : Fault} {w : World} (last : j.step c = .failed fault w) :
    Finishes c j (.error fault) w
  | on {j k : Journey} {r : Except Fault Value} {w : World} (first : j.step c = .on k)
    (rest : Finishes c k r w) : Finishes c j r w

/-- What the end of a run shows of the journey's end. -/
def Shows (z : Tracked) (r : Except Fault Value) (w : World) : Prop :=
  z.machine.world = w ∧
    match r with
    | .ok v => z.machine.status = .ok ∧ z.machine.register? 0 = some v
    | .error fault => z.machine.status = fault.status

/-- The step that a journey is at, if there is one. -/
theorem Match.step_eq (h : Match s c l j x) :
    j.step c = match l.steps[j.visit.pos]? with
      | none => .failed .endOfCode j.world
      | some step => j.act c l step := by
  cases found : l.steps[j.visit.pos]? <;> simp [Journey.step, h.known, found]

/-- A completed run follows every step of the journey. -/
theorem Match.on (linked : Linked s c) (h : Match s c l j x)
    (run : Completes s storing Any n x z) (step : j.step c = .on k) :
    ∃ l' y n', Match s c l' k y ∧ Completes s storing Any n' y z := by
  rw [h.step_eq] at step
  cases found : l.steps[j.visit.pos]? with
  | none =>
      rw [found] at step
      cases step
  | some here =>
      rw [found] at step
      have followed := h.followed linked found
      dsimp only at step
      rw [step] at followed
      rcases followed with ⟨-, barred⟩ | ⟨-, count, y, steps, arrived⟩
      · exact absurd run (barred n z)
      · obtain ⟨l', there⟩ := arrived.arrived
        obtain ⟨n', -, rest⟩ := run.after_steps steps
        exact ⟨l', y, n', there, rest⟩

theorem Match.reaches (linked : Linked s c) (h : Match s c l j x)
    (run : Completes s storing Any n x z) {most : Nat} (reach : j.Reaches c most k) :
    ∃ l' y n', Match s c l' k y ∧ Completes s storing Any n' y z := by
  induction reach generalizing l x n with
  | refl => exact ⟨l, x, n, h, run⟩
  | head _ first _ ih =>
      obtain ⟨l', y, n', there, rest⟩ := h.on linked run first
      exact ih there rest

/-- A completed run shows what the journey comes to. -/
theorem Match.finished (linked : Linked s c) (h : Match s c l j x)
    (run : Completes s storing Any n x z) {r : Except Fault Value} {w : World}
    (finishes : j.Finishes c r w) : Shows z r w := by
  induction finishes generalizing l x n with
  | @finished j v w last =>
      rw [h.step_eq] at last
      cases found : l.steps[j.visit.pos]? with
      | none =>
          rw [found] at last
          cases last
      | some here =>
          rw [found] at last
          have followed := h.followed linked found
          dsimp only at last
          rw [last] at followed
          rcases followed with ⟨-, barred⟩ | ⟨-, count, z', run', status, world, value, -⟩
          · exact absurd run (barred n z)
          · obtain ⟨-, rfl⟩ := run.unique run'
            exact ⟨world, status, value⟩
  | @failed j fault w last =>
      rw [h.step_eq] at last
      cases found : l.steps[j.visit.pos]? with
      | none =>
          rw [found] at last
          cases last
          rcases (ended linked h found).ends with
            ⟨-, barred⟩ | ⟨-, count, z', run', status, world, -⟩
          · exact absurd run (barred n z)
          · obtain ⟨-, rfl⟩ := run.unique run'
            exact ⟨world, status⟩
      | some here =>
          rw [found] at last
          have followed := h.followed linked found
          dsimp only at last
          rw [last] at followed
          rcases followed.2.ends with ⟨-, barred⟩ | ⟨-, count, z', run', status, world, -⟩
          · exact absurd run (barred n z)
          · obtain ⟨-, rfl⟩ := run.unique run'
            exact ⟨world, status⟩
  | on first _ ih =>
      obtain ⟨l', y, n', there, rest⟩ := h.on linked run first
      exact ih there rest

/-- Behind the last step of a listing a machine does as for a step that fails. -/
theorem Match.followed_end (linked : Linked s c) (h : Match s c l j x)
    (found : l.steps[j.visit.pos]? = none) : Followed s c l (.act .nop) x (j.step c) := by
  rw [h.step_eq, found]
  refine ⟨by decide, (ended linked h found).mono fun z is => ?_⟩
  obtain ⟨status, world, steps, peak⟩ := is
  exact ⟨status, world, steps, peak.trans (Nat.max_eq_left h.peak).symm⟩

/-- A step that costs nothing is a marker. -/
theorem Journey.act_of_cost_eq_zero {step : Step} (fine : j.act c l step = .on k)
    (free : step.cost true = 0) :
    k.visit.func = j.visit.func ∧ k.visit.pos = j.visit.pos + 1 := by
  cases step with
  | act =>
      cases fine
      exact ⟨rfl, rfl⟩
  | unary dest op a =>
      cases op with
      | neg =>
          simp only [Step.cost, Step.width] at free
          split at free <;> cases free
      | _ => cases free
  | _ => cases free

/-- The journey of a clean run that is completed comes to its end, and if it fails, then with
a fault of its own. The induction is on what
is left of the run, and within that on what is left of the listing, since markers have no
instructions. -/
theorem Match.finishes (linked : Linked s c) {l : Listing} {j : Journey} {x : Tracked} {n : Nat}
    (h : Match s c l j x)
    (run : Completes s storing (Clean s c.arity) n x z) :
    ∃ r w, j.Finishes c r w ∧ ∀ fault, r = .error fault → fault.IsOwn := by
  cases found : l.steps[j.visit.pos]? with
  | none =>
      have last := h.step_eq
      rw [found] at last
      refine ⟨_, _, .failed last, fun fault is => ?_⟩
      cases is
      decide
  | some step =>
      have followed := h.followed linked found
      have turn := h.step_eq
      rw [found] at turn
      dsimp only at turn
      cases comes : j.act c l step with
      | finished v w => exact ⟨_, _, .finished (turn.trans comes), nofun⟩
      | failed fault w =>
          rw [comes] at followed
          refine ⟨_, _, .failed (turn.trans comes), fun fault is => ?_⟩
          cases is
          exact followed.1
      | astray =>
          rw [comes] at followed
          exact absurd run (followed n z)
      | on k =>
          rw [comes] at followed
          rcases followed with ⟨-, barred⟩ | ⟨-, count, y, steps, arrived⟩
          · exact absurd run.any (barred n z)
          · obtain ⟨l', there⟩ := arrived.arrived
            obtain ⟨n', left, rest⟩ := run.after_steps steps
            have ahead : n' < n ∨ n' = n ∧
                l'.steps.length - k.visit.pos < l.steps.length - j.visit.pos := by
              rcases Nat.eq_zero_or_pos count with none | some
              · subst none
                have free : step.cost true = 0 := by
                  have counted := arrived.steps
                  cases steps
                  omega
                obtain ⟨func, pos⟩ := Journey.act_of_cost_eq_zero comes free
                have known := there.known
                rw [func, h.known] at known
                cases known
                have inside := (List.getElem?_eq_some_iff.1 found).1
                omega
              · omega
            obtain ⟨r, w, finishes, own⟩ := Match.finishes linked there rest
            exact ⟨r, w, .on (turn.trans comes) finishes, own⟩
termination_by (n, l.steps.length - j.visit.pos)
decreasing_by
  rcases ahead with less | ⟨rfl, less⟩
  · exact .left _ _ less
  · exact .right _ less

/-- There is one frame for each waiting caller, and the entry's. -/
theorem Pile.length_eq {registers : Array Value} {base : Nat} {waiting : List Waiting}
    {frames : List Frame} {writtens : List (List Nat)}
    (h : Pile c registers base waiting frames writtens) : frames.length = waiting.length + 1 := by
  induction h with
  | entry => rfl
  | call _ _ _ _ _ _ _ _ ih => exact congrArg Nat.succ ih

theorem Match.depth_eq (h : Match s c l j x) : x.machine.depth = j.waiting.length + 1 := by
  obtain ⟨_, _, -, -, pile⟩ := h.stands
  have length := pile.length_eq
  rwa [List.length_reverse, Array.length_toList] at length

/-- The callers that wait are fewer than the frames that may be open. -/
theorem Match.waiting_lt (h : Match s c l j x) : j.waiting.length < max 1 s.limits.depth := by
  have depth_le := h.framed.depth_le
  rwa [h.depth_eq] at depth_le

/-! ### The beginning -/

/-- The journey that begins in the entry function, which has no arguments. -/
def Journey.start (func : Nat) (w : World) : Journey :=
  ⟨⟨func, 0, fun _ => none⟩, [], w⟩

/-- The world that a run starts with: no object is left from the run before. -/
def Machine.outset (m : Machine) : World := ⟨.empty, m.input, m.output⟩

/-- A run at its beginning. -/
def Tracked.begin (s : Setting) (m : Machine) : Tracked := ⟨m.begin s, [[]], 0⟩

/-- A run that has an entry function to begin with begins where the journey does. -/
theorem Match.begin (linked : Linked s c) (m : Machine) {func : Nat}
    (entry : s.program.entry? = some func) (room : 2 ≤ s.limits.operands) :
    ∃ l, Match s c l (.start func m.outset) (.begin s m) := by
  have framed := begin_framed s m
  have begun := begin_of_le m entry room
  have func_lt : func < c.listings.length := by
    rw [Program.entry?, Option.filter_eq_some_iff] at entry
    rw [← linked.size]
    exact of_decide_eq_true entry.2
  have temps : c.listings[func].entered [] = fun _ => none := rfl
  have stands : Stands c.listings[func] ⟨func, 0, c.listings[func].entered []⟩ none 0 0 0
      (m.begin s).registers (List.range ([] : List Value).length) :=
    .entered (Nat.zero_le _) rfl fun i lt => absurd lt (Nat.not_lt_zero i)
  refine ⟨c.listings[func], List.getElem?_eq_getElem func_lt, ?_, framed, ?_, ?_, ?_, ?_, ?_,
    [], [], rfl, ?_, ?_⟩
  · show (m.begin s).isRunning = true
    rw [begun]
    rfl
  · show (m.begin s).func = func
    rw [begun]
  · show (m.begin s).place = 0
    rw [begun]
    rfl
  · show (m.begin s).world = _
    rw [begun]
    rfl
  · show (m.begin s).top ≤ 0
    rw [begun]
    exact Nat.le_refl 0
  · intro limit _
    show (m.begin s).steps ≤ limit
    rw [begun]
    exact Nat.zero_le limit
  · show Stands _ _ _ (m.begin s).base (m.begin s).top (m.begin s).top (m.begin s).registers _
    have base : (m.begin s).base = 0 := by rw [begun]; rfl
    have top : (m.begin s).top = 0 := by rw [begun]; rfl
    rw [base, top]
    exact stands
  · show Pile c _ (m.begin s).base _ (m.begin s).frames.toList.reverse _
    have base : (m.begin s).base = 0 := by rw [begun]; rfl
    have frames : (m.begin s).frames.toList.reverse = [⟨func, 0, 0, 0⟩] := by rw [begun]; rfl
    rw [base, frames]
    exact .entry rfl

end RegisterCode
