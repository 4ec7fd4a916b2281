import RegisterCode.Proofs.Code.Simulation

/-!
Machines that have room. A frame takes no more registers than the listing of its function has
slots, so limits that allow for as many frames as a journey has open, and for any number of
steps, are not met: the machine follows the journey all the way (`Match.follows`), and where
the journey fails, the instruction that the machine is at fails with the same fault
(`Match.fails`).
-/

namespace RegisterCode

open Machine Tracked

/-- No function needs more registers for its frame. -/
def Chart.Within (c : Chart) (width : Nat) : Prop :=
  ∀ l ∈ c.listings, max 1 (l.room l.steps.length) ≤ width

instance (c : Chart) (width : Nat) : Decidable (c.Within width) :=
  inferInstanceAs (Decidable (∀ l ∈ _, _))

/-- Limits that are not met while no more than `most` callers wait, one more frame is opened,
no frame is wider than `width` and two operands are on top. -/
structure Limits.Ample (limits : Limits) (width most : Nat) : Prop where
  registers : (most + 1) * width + 2 ≤ limits.registers
  operands : 2 * (most + 2) ≤ limits.operands
  depth : most + 2 ≤ limits.depth
  steps : limits.steps = none

variable {s : Setting} {c : Chart} {l : Listing} {j k : Journey} {x : Tracked}
  {width most : Nat}

/-! ### How much the frames take -/

/-- Each caller that waits takes no more registers than a frame may. -/
theorem Pile.base_le {registers : Array Value} {base : Nat} {waiting : List Waiting}
    {frames : List Frame} {writtens : List (List Nat)} (within : c.Within width)
    (h : Pile c registers base waiting frames writtens) : base ≤ waiting.length * width := by
  induction h with
  | entry => exact Nat.zero_le _
  | @call l w rest _ _ _ _ base known _ _ answerSlot answerPlace _ _ _ ih =>
      have room := l.room_le_all w.visit.pos
      have fits := within l (List.mem_of_getElem? known)
      rw [List.length_cons, Nat.succ_mul]
      omega

namespace Match

theorem base_le (within : c.Within width) (h : Match s c l j x) :
    x.machine.base ≤ j.waiting.length * width := by
  obtain ⟨_, _, -, -, pile⟩ := h.stands
  exact pile.base_le within

theorem room_le (within : c.Within width) (h : Match s c l j x) (pos : Nat) :
    max 1 (l.room pos) ≤ width := by
  have room := l.room_le_all pos
  have fits := within l (List.mem_of_getElem? h.known)
  omega

theorem top_le (within : c.Within width) (h : Match s c l j x) :
    x.machine.top ≤ x.machine.base + width := by
  obtain ⟨_, _, -, stands, -⟩ := h.stands
  have top := stands.top_le
  have room := h.room_le within j.visit.pos
  omega

/-- The temporary that a step writes has its slot in the frame. -/
theorem slot_le (within : c.Within width) (h : Match s c l j x) {step : Step} {dest : Address}
    (found : l.steps[j.visit.pos]? = some step) (writes : step.dest? = some dest) :
    l.slot dest.id + 1 ≤ width := by
  have named := Listing.named_of_writes (Listing.writes?_of_dest found writes)
  have below := Listing.slot_lt_room named
  have room := h.room_le within (j.visit.pos + 1)
  omega

theorem reach_le (within : c.Within width) (h : Match s c l j x) {step : Step}
    (found : l.steps[j.visit.pos]? = some step) (ok : Bool) :
    l.reach step ok x.machine.base x.machine.top ≤ x.machine.base + width + 2 := by
  have top := h.top_le within
  cases step with
  | unary dest op arg =>
      have slot := h.slot_le within found rfl
      show max _ _ ≤ _
      omega
  | binary dest op left right =>
      have slot := h.slot_le within found rfl
      cases ok with
      | true =>
          show max _ _ ≤ _
          omega
      | false =>
          show _ + 2 ≤ _
          omega
  | _ =>
      show x.machine.top ≤ _
      omega

/-- What a stretch of the run demands, if it does not go higher than two operands on top of
the frame and opens no more than one frame. -/
theorem spared (within : c.Within width) (ample : s.limits.Ample width most)
    (h : Match s c l j x) (few : j.waiting.length ≤ most) {d : Demand}
    (registers : d.registers ≤ x.machine.base + width + 2)
    (depth : d.depth ≤ x.machine.depth + 1) : ¬ d.Exceeds s.limits := by
  have base := h.base_le within
  have frames := h.depth_eq
  have wide : (j.waiting.length + 1) * width ≤ (most + 1) * width :=
    Nat.mul_le_mul_right width (Nat.succ_le_succ few)
  rw [Nat.succ_mul] at wide
  have registers' := ample.registers
  have operands' := ample.operands
  have depth' := ample.depth
  rintro (short | ⟨limit, known, -⟩ | short | short)
  · omega
  · rw [ample.steps] at known
    cases known
  · omega
  · omega

theorem spared_step (within : c.Within width) (ample : s.limits.Ample width most)
    (h : Match s c l j x) (few : j.waiting.length ≤ most) {step : Step}
    (found : l.steps[j.visit.pos]? = some step) (ok : Bool) :
    ¬ (l.demand step ok x.machine).Exceeds s.limits := by
  refine h.spared within ample few (h.reach_le within found ok) (Nat.add_le_add_left ?_ _)
  unfold Step.opens
  split
  · exact Nat.le_refl 1
  · exact Nat.zero_le 1

/-! ### Following a journey -/

/-- One step of the journey. -/
theorem advances (linked : Linked s c) (within : c.Within width)
    (ample : s.limits.Ample width most) (h : Match s c l j x) (few : j.waiting.length ≤ most)
    (first : j.step c = .on k) : ∃ l' n y, Steps s storing n x y ∧ Match s c l' k y := by
  rw [h.step_eq] at first
  cases found : l.steps[j.visit.pos]? with
  | none =>
      rw [found] at first
      cases first
  | some step =>
      rw [found] at first
      have followed := h.followed linked found
      dsimp only at first
      rw [first] at followed
      obtain ⟨-, n, y, steps, arrived⟩ :=
        followed.resolve_left fun barred => h.spared_step within ample few found true barred.1
      obtain ⟨l', there⟩ := arrived.arrived
      exact ⟨l', n, y, steps, there⟩

/-- The machine gets to where the journey gets. -/
theorem follows (linked : Linked s c) (within : c.Within width)
    (ample : s.limits.Ample width most) (h : Match s c l j x) (reach : j.Reaches c most k) :
    ∃ l' n y, Steps s storing n x y ∧ Match s c l' k y := by
  induction reach generalizing l x with
  | refl => exact ⟨l, 0, x, .refl x, h⟩
  | head few first _ ih =>
      obtain ⟨l', n, y, steps, there⟩ := h.advances linked within ample few first
      obtain ⟨l'', n', z, steps', there'⟩ := ih there
      exact ⟨l'', n + n', z, steps.trans steps', there'⟩

/-- Where the journey fails, so does the machine, with the same fault. -/
theorem fails (linked : Linked s c) (within : c.Within width)
    (ample : s.limits.Ample width most) (h : Match s c l j x) (few : j.waiting.length ≤ most)
    {fault : Fault} {w : World} (last : j.step c = .failed fault w) :
    ∃ n y m, Steps s storing n x y ∧ y.machine.attempt s = .failed fault m ∧
      fault.isLimit = false ∧ m.world = w := by
  rw [h.step_eq] at last
  cases found : l.steps[j.visit.pos]? with
  | none =>
      rw [found] at last
      cases last
      have spared : ¬ Demand.Exceeds ⟨x.machine.steps + 1, x.machine.top, x.machine.depth⟩
          s.limits :=
        h.spared within ample few ((h.top_le within).trans (Nat.le_add_right _ _))
          (Nat.le_succ _)
      obtain ⟨-, n, y, m, steps, failed, limit, -, world, -⟩ :=
        (ended linked h found).resolve_left fun barred => spared barred.1
      exact ⟨n, y, m, steps, failed, limit, world⟩
  | some step =>
      rw [found] at last
      have followed := h.followed linked found
      dsimp only at last
      rw [last] at followed
      obtain ⟨-, n, y, m, steps, failed, limit, -, world, -⟩ :=
        followed.2.resolve_left fun barred => h.spared_step within ample few found false barred.1
      exact ⟨n, y, m, steps, failed, limit, world⟩

/-- Where the journey is over, so is the run. -/
theorem returns (linked : Linked s c) (within : c.Within width)
    (ample : s.limits.Ample width most) (h : Match s c l j x) (few : j.waiting.length ≤ most)
    {v : Value} {w : World} (last : j.step c = .finished v w) :
    ∃ n z, Completes s storing Any n x z ∧ Shows z (.ok v) w := by
  rw [h.step_eq] at last
  cases found : l.steps[j.visit.pos]? with
  | none =>
      rw [found] at last
      cases last
  | some step =>
      rw [found] at last
      have followed := h.followed linked found
      dsimp only at last
      rw [last] at followed
      have top := h.top_le within
      have room := h.room_le within 0
      have spared : ¬ Demand.Exceeds ⟨x.machine.steps + 1, max x.machine.top 1,
          x.machine.depth⟩ s.limits :=
        h.spared within ample few (by dsimp only; omega) (Nat.le_succ _)
      obtain ⟨-, n, z, run, status, world, value, -⟩ :=
        followed.resolve_left fun barred => spared barred.1
      exact ⟨n, z, run, world, status, value⟩

end Match

end RegisterCode
