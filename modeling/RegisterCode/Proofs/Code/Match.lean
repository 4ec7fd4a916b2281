import RegisterCode.Proofs.Code.Standing

/-!
Machines that execute the code of listings, and journeys through the listings.
`Match` says that a machine is where a journey is.
-/

namespace RegisterCode

/-- The program of a setting is the code of the listings of a chart. -/
structure Linked (s : Setting) (c : Chart) : Prop where
  constants : s.program.constants = c.constants
  procedures : s.procedures = c.procedures
  lawful : s.Lawful
  size : s.program.chunks.size = c.listings.length
  orderly : ∀ l ∈ c.listings,
    l.Orderly c.constants.size c.listings.length c.procedures.size
  assembled : ∀ (f : Nat) (l : Listing), c.listings[f]? = some l →
    ∃ chunk, s.program.chunks[f]? = some chunk ∧ l.Assembled chunk

/-! ### What instructions read and write -/

namespace Instruction

/-- The register of the frame that an operand is. -/
def register? (i : Instruction) (slot : Nat) : Option Nat :=
  (i.operand? slot).bind fun x =>
    if x.mode = .register then some x.value.toNatClampNeg else none

/-- The register that a move or a negation writes. -/
def stored? (i : Instruction) : Option Nat :=
  match i.op with
  | .mov | .neg => i.register? 0
  | _ => none

/-- The operand slots that an instruction reads. -/
def readSlots (i : Instruction) : List Nat :=
  match i.op with
  | .mov => [1]
  | .push | .neg | .jump | .ret => [0]
  | .jumpIf | .jumpElse | .call | .nativeCall => [0, 1]
  | _ => []

/-- The registers of the frame that an instruction reads as operands. -/
def sources (i : Instruction) : List Nat := i.readSlots.filterMap i.register?

end Instruction

/-- The marking of the registers that are written as operands. -/
def storing : Marking := fun _ i => i.stored?

/-- The instruction reads no register that was not written before in the same
frame, and calls no function with more arguments than it has parameters, or than
one if it has none. -/
structure Clean (s : Setting) (arity : Nat → Nat) (i : Instruction) (x : Tracked) : Prop where
  sources : ∀ offset ∈ i.sources, offset ∈ x.written.headD []
  call : i.op = .call → ∀ func argc m, x.machine.callee s i = .ok (func, argc) m →
    argc ≤ max 1 (arity func)

/-- The number of parameters of a function. -/
def Chart.arity (c : Chart) (func : Nat) : Nat := (c.listings[func]?.map Listing.params).getD 0

/-! ### Bounds of the frames -/

/-- The bases and tops of the open frames, the innermost first. -/
def Machine.bounds (m : Machine) : List (Nat × Nat) :=
  (m.base, m.top) :: m.frames.toList.reverse.map fun frame => (frame.base, frame.top)

namespace Listing

/-- The highest top that a step gets to in a frame with these bounds, when it
fails or when it does not. -/
def reach (l : Listing) (step : Step) (ok : Bool) (base top : Nat) : Nat :=
  match step with
  | .unary dest _ _ => max top (base + l.slot dest.id + 1)
  | .binary dest _ _ _ => if ok then max (top + 2) (base + l.slot dest.id + 1) else top + 2
  | _ => top

/-- How a step that does not fail changes the bounds of the frames. -/
def shift (l : Listing) (step : Step) : List (Nat × Nat) → List (Nat × Nat)
  | [] => []
  | (base, top) :: rest =>
    match step with
    | .unary dest _ _ | .binary dest _ _ _ => (base, max top (base + l.slot dest.id + 1)) :: rest
    | .actOnTwo .call _ count => (top - count.id.toNatClampNeg, top) :: (base, top) :: rest
    | .actOn .ret _ => rest
    | _ => (base, top) :: rest

end Listing

namespace Step

/-- How many instructions a step starts, when it fails or when it does not. -/
def cost (step : Step) (ok : Bool) : Nat :=
  match step with
  | .binary .. => if ok then 4 else 3
  | step => step.width

/-- How many frames a step opens. -/
def opens : Step → Nat
  | .actOnTwo .call _ _ => 1
  | _ => 0

end Step

/-- What a step demands of the limits. -/
def Listing.demand (l : Listing) (step : Step) (ok : Bool) (m : Machine) : Tracked.Demand :=
  ⟨m.steps + step.cost ok, l.reach step ok m.base m.top, m.depth + step.opens⟩

/-! ### Machines and journeys -/

/-- The machine is where the journey is, in the listing `l`. -/
structure Match (s : Setting) (c : Chart) (l : Listing) (j : Journey) (x : Tracked) : Prop where
  known : c.listings[j.visit.func]? = some l
  running : x.machine.isRunning = true
  framed : Machine.Framed s.limits x.machine
  func : x.machine.func = j.visit.func
  place : x.machine.place = l.place j.visit.pos
  world : x.machine.world = j.world
  peak : x.machine.top ≤ x.peak
  steps : ∀ limit, s.limits.steps = some limit → x.machine.steps ≤ limit
  stands : ∃ frame rest, x.written = frame :: rest ∧
    Stands l j.visit none x.machine.base x.machine.top x.machine.top x.machine.registers frame ∧
    Pile c x.machine.registers x.machine.base j.waiting x.machine.frames.toList.reverse rest

variable {s : Setting} {c : Chart} {l : Listing} {j : Journey} {x : Tracked}

namespace Match

theorem orderly (linked : Linked s c) (h : Match s c l j x) :
    l.Orderly c.constants.size c.listings.length c.procedures.size :=
  linked.orderly l (List.mem_of_getElem? h.known)

/-- The instructions of the step at hand stand where the machine is. -/
theorem fetch (linked : Linked s c) (h : Match s c l j x) {step : Step}
    (found : l.steps[j.visit.pos]? = some step) {k : Nat} {i : Instruction}
    (code : (l.code j.visit.pos step)[k]? = some i) {y : Tracked}
    (func : y.machine.func = x.machine.func) (place : y.machine.place = x.machine.place + k) :
    y.fetch? s = some i := by
  obtain ⟨chunk, here, assembled⟩ := linked.assembled _ _ h.known
  rw [Tracked.fetch?, Program.fetch?, func, h.func, here, place, h.place]
  exact assembled.code _ _ found k i code

/-- An address that is read by the step at hand and has a value. -/
theorem load (linked : Linked s c) (h : Match s c l j x) {a : Address}
    (sound : a.Sound c.constants.size)
    (read : ∀ t, a.temp? = some t → t ∈ l.reads j.visit.pos) {v : Value}
    (value : c.value? j.visit.temps a = some v) {m : Machine} (base : m.base = x.machine.base)
    (registers : ∀ i < x.machine.top, m.registers[i]? = x.machine.registers[i]?) :
    m.load s (l.operand a) = .ok v m := by
  obtain ⟨space, id⟩ := a
  cases space with
  | immediate =>
      cases value
      exact Machine.load_immediate id m
  | constant =>
      refine Machine.load_constant sound.1 ?_ m
      rw [linked.constants]
      exact value
  | temp =>
      obtain ⟨frame, rest, -, stands, -⟩ := h.stands
      have awaits : l.Awaits j.visit.pos id := ⟨_, Nat.le_refl _, read id rfl⟩
      obtain ⟨-, below, here⟩ := stands.set id v awaits nofun value
      refine Machine.load_register ((h.orderly linked).slot_lt
        ((h.orderly linked).known_of_awaits awaits)) ?_
      rw [base, registers _ below]
      exact here
  | object => exact False.elim sound

/-- An address without a value is a temporary that the frame does not hold. -/
theorem unset (linked : Linked s c) (h : Match s c l j x) {a : Address}
    (sound : a.Sound c.constants.size)
    (read : ∀ t, a.temp? = some t → t ∈ l.reads j.visit.pos)
    (value : c.value? j.visit.temps a = none) :
    ∃ slot, slot < numberRange ∧ l.operand a = .register (Int16.ofNat slot) ∧
      slot ∉ x.written.headD [] := by
  obtain ⟨space, id⟩ := a
  cases space with
  | immediate => cases value
  | constant =>
      have inside := sound.2
      have none := Array.getElem?_eq_none_iff.1 value
      exact absurd inside (Nat.not_lt.2 none)
  | temp =>
      obtain ⟨frame, rest, written, stands, -⟩ := h.stands
      have awaits : l.Awaits j.visit.pos id := ⟨_, Nat.le_refl _, read id rfl⟩
      refine ⟨l.slot id, (h.orderly linked).slot_lt
        ((h.orderly linked).known_of_awaits awaits), rfl, ?_⟩
      rw [written]
      exact stands.unset id awaits nofun value
  | object => cases value

/-- Reading such a temporary is not clean. -/
theorem barred_of_unset (linked : Linked s c) (h : Match s c l j x) {a : Address}
    (sound : a.Sound c.constants.size)
    (read : ∀ t, a.temp? = some t → t ∈ l.reads j.visit.pos)
    (value : c.value? j.visit.temps a = none) {y : Tracked}
    (running : y.machine.isRunning = true) (written : y.written = x.written) {i : Instruction}
    {slot : Nat} (fetched : y.fetch? s = some i) (mem : slot ∈ i.readSlots)
    (operand : i.operand? slot = some (l.operand a)) :
    y.Barred s storing (Clean s c.arity) := by
  obtain ⟨offset, small, register, missing⟩ := h.unset linked sound read value
  rw [← written] at missing
  refine Tracked.Barred.of_forbidden running fetched fun clean => ?_
  refine missing (clean.sources offset (List.mem_filterMap.2 ⟨slot, mem, ?_⟩))
  rw [Instruction.register?, operand, register]
  show some (Int16.ofNat offset).toNatClampNeg = _
  rw [Machine.toNatClampNeg_ofNat_of_small small]

end Match

end RegisterCode
