import RegisterCode.Proofs.Code.Match

/-!
A machine follows a journey. For each step of the journey, the machine executes
the instructions of the step and is where the journey is again; or it does not
get through because of its limits.
-/

namespace RegisterCode

open Machine Tracked

variable {s : Setting} {c : Chart} {l : Listing} {j k : Journey} {x y : Tracked}

/-- The machine `y` is where the journey `k` is, after a step from the machine
`x` in the listing `l`. -/
structure Arrived (s : Setting) (c : Chart) (l : Listing) (step : Step) (x : Tracked)
    (k : Journey) (y : Tracked) : Prop where
  arrived : ∃ l', Match s c l' k y
  steps : y.machine.steps = x.machine.steps + step.cost true
  peak : y.peak =
    max (max x.peak (l.reach step true x.machine.base x.machine.top)) y.machine.top
  bounds : y.machine.bounds = l.shift step x.machine.bounds

/-- A machine that stays in its frame. -/
theorem Match.stay (h : Match s c l j x) (running : y.machine.isRunning = true)
    (framed : Framed s.limits y.machine) (visit : k.visit.func = j.visit.func)
    (waiting : k.waiting = j.waiting) (func : y.machine.func = x.machine.func)
    (place : y.machine.place = l.place k.visit.pos) (world : y.machine.world = k.world)
    (peak : y.machine.top ≤ y.peak)
    (steps : ∀ limit, s.limits.steps = some limit → y.machine.steps ≤ limit)
    (base : y.machine.base = x.machine.base) (frames : y.machine.frames = x.machine.frames)
    (below : ∀ i < x.machine.base, y.machine.registers[i]? = x.machine.registers[i]?)
    (stands : ∀ frame rest, x.written = frame :: rest →
      Stands l j.visit none x.machine.base x.machine.top x.machine.top x.machine.registers frame →
      ∃ frame', y.written = frame' :: rest ∧
        Stands l k.visit none x.machine.base y.machine.top y.machine.top y.machine.registers
          frame') :
    Match s c l k y := by
  obtain ⟨frame, rest, written, here, pile⟩ := h.stands
  obtain ⟨frame', written', here'⟩ := stands frame rest written here
  refine ⟨?_, running, framed, ?_, place, world, peak, steps, frame', rest, written', ?_, ?_⟩
  · rw [visit]
    exact h.known
  · rw [func, visit]
    exact h.func
  · rw [base]
    exact here'
  · rw [base, waiting, frames]
    exact pile.congr below

/-- The steps that a machine has started are within the limit if what it demands
is. -/
theorem steps_le_of_not_exceeds {d : Demand} {limits : Limits} {n : Nat}
    (h : ¬ d.Exceeds limits) (le : n ≤ d.steps) :
    ∀ limit, limits.steps = some limit → n ≤ limit := by
  intro limit known
  by_contra more
  exact h (.inr (.inl ⟨limit, known, by omega⟩))

/-! ### Single instructions -/

namespace Instruction

theorem stored?_mov {slot : Nat} (small : slot < numberRange) (src : Operand) :
    (binary .mov (.register (Int16.ofNat slot)) src).stored? = some slot := by
  show register? _ 0 = _
  simp only [register?, operand?_binary_zero, Option.bind_some, Operand.register, if_true,
    toNatClampNeg_ofNat_of_small small]

theorem stored?_neg {slot : Nat} (small : slot < numberRange) :
    (unary .neg (.register (Int16.ofNat slot))).stored? = some slot := by
  show register? _ 0 = _
  simp only [register?, operand?_unary, Option.bind_some, Operand.register, if_true,
    toNatClampNeg_ofNat_of_small small]

end Instruction

/-- Instructions other than calls and returns only add what they store. -/
theorem writtenAfter_of_op {m : Machine} {i : Instruction} {op : Opcode}
    {written : List (List Nat)} (is : i.op = op) (call : op ≠ .call) (ret : op ≠ .ret) :
    writtenAfter s storing m i written =
      match i.stored?, written with
      | some offset, frame :: rest => (offset :: frame) :: rest
      | _, _ => written := by
  unfold writtenAfter
  split
  · rename_i op'
    exact absurd (is.symm.trans op') call
  · rename_i op'
    exact absurd (is.symm.trans op') ret
  · rfl

theorem writtenAfter_of_unstored (s : Setting) {m : Machine} {i : Instruction} {op : Opcode}
    (is : i.op = op) (call : op ≠ .call) (ret : op ≠ .ret) (unstored : i.stored? = none)
    (written : List (List Nat)) : writtenAfter s storing m i written = written := by
  rw [writtenAfter_of_op is call ret, unstored]

theorem writtenAfter_mov (s : Setting) {m : Machine} {slot : Nat} (small : slot < numberRange)
    (src : Operand) (frame : List Nat) (rest : List (List Nat)) :
    writtenAfter s storing m (.binary .mov (.register (Int16.ofNat slot)) src) (frame :: rest) =
      (slot :: frame) :: rest := by
  have op : (Instruction.binary .mov (.register (Int16.ofNat slot)) src).op = .mov := rfl
  rw [writtenAfter_of_op op (by decide) (by decide), Instruction.stored?_mov small src]

theorem writtenAfter_neg (s : Setting) {m : Machine} {slot : Nat} (small : slot < numberRange)
    (frame : List Nat) (rest : List (List Nat)) :
    writtenAfter s storing m (.unary .neg (.register (Int16.ofNat slot))) (frame :: rest) =
      (slot :: frame) :: rest := by
  have op : (Instruction.unary .neg (.register (Int16.ofNat slot))).op = .neg := rfl
  rw [writtenAfter_of_op op (by decide) (by decide), Instruction.stored?_neg small]

/-- A move to a register, from an operand whose value is `v`. -/
theorem goes_mov (lawful : s.Lawful) (running : x.machine.isRunning = true)
    (framed : Framed s.limits x.machine) {slot : Nat} (small : slot < numberRange)
    {src : Operand} {v : Value} {m : Machine}
    (fetched : x.fetch? s = some (.binary .mov (.register (Int16.ofNat slot)) src))
    (load : load s src x.machine.started = .ok v m) (base : m.base = x.machine.base)
    (registers : m.registers = x.machine.registers) :
    Goes s storing (x.demand (max x.machine.top (x.machine.base + slot + 1))) x fun y =>
      y = x.after s storing (.binary .mov (.register (Int16.ofNat slot)) src)
        (m.assigned slot v).advanced ∧ Framed s.limits y.machine := by
  have size := framed.size
  have top_le := framed.nested.bounds.2
  refine .of_dispatch _ lawful.isConfined running framed fetched _ (fun fits => ?_) fun short => ?_
  · have inside : m.base + slot < m.registers.size := by
      rw [base, registers]
      omega
    rw [dispatch_mov load, bind_of_ok (assign_slot v small inside)]
    rfl
  · have outside : m.registers.size ≤ m.base + slot := by
      rw [base, registers]
      omega
    refine ⟨m, ?_⟩
    rw [dispatch_mov load, bind_of_error (assign_slot_of_le v small outside)]

/-- Pushing an operand whose value is `v` and which is not itself taken off the
frame. -/
theorem goes_push (lawful : s.Lawful) (running : x.machine.isRunning = true)
    (framed : Framed s.limits x.machine) {src : Operand} {v : Value}
    (fetched : x.fetch? s = some (.unary .push src))
    (load : load s src x.machine.started = .ok v x.machine.started) :
    Goes s storing (x.demand (x.machine.top + 1)) x fun y =>
      y = ⟨(x.machine.started.pushed v).advanced, x.written, max x.peak (x.machine.top + 1)⟩ ∧
        Framed s.limits y.machine := by
  have size := framed.size
  have op : (Instruction.unary .push src).op = .push := rfl
  have unstored : (Instruction.unary .push src).stored? = none := rfl
  have after : x.after s storing (.unary .push src) (x.machine.started.pushed v).advanced =
      ⟨(x.machine.started.pushed v).advanced, x.written, max x.peak (x.machine.top + 1)⟩ := by
    rw [Tracked.after, writtenAfter_of_unstored s op (by decide) (by decide) unstored]
    rfl
  rw [← after]
  refine .of_dispatch _ lawful.isConfined running framed fetched _ (fun fits => ?_) fun short => ?_
  · have inside : x.machine.started.top < x.machine.started.registers.size := by
      show x.machine.top < x.machine.registers.size
      omega
    rw [dispatch_push load, bind_of_ok (push_of_room v inside)]
    rfl
  · have outside : x.machine.started.registers.size ≤ x.machine.started.top := by
      show x.machine.registers.size ≤ x.machine.top
      omega
    refine ⟨x.machine.started, ?_⟩
    rw [dispatch_push load, bind_of_error (push_of_le v outside)]

/-- Negating a register whose value is `v`. -/
theorem goes_neg (lawful : s.Lawful) (running : x.machine.isRunning = true)
    (framed : Framed s.limits x.machine) {slot : Nat} (small : slot < numberRange) {v : Value}
    (fetched : x.fetch? s = some (.unary .neg (.register (Int16.ofNat slot))))
    (here : x.machine.registers[x.machine.base + slot]? = some v) (number : v.neg.isDud = false) :
    Goes s storing (x.demand x.machine.top) x fun y =>
      y = x.after s storing (.unary .neg (.register (Int16.ofNat slot)))
        (x.machine.started.assigned slot v.neg).advanced ∧ Framed s.limits y.machine := by
  have inside : x.machine.started.base + slot < x.machine.started.registers.size :=
    (Array.getElem?_eq_some_iff.1 here).1
  refine .of_dispatch_free _ lawful.isConfined running framed fetched ?_
  have load : load s (.register (Int16.ofNat slot)) x.machine.started =
      .ok v x.machine.started := load_register small here
  rw [dispatch_neg rfl load, number, if_neg Bool.false_ne_true,
    bind_of_ok (assign_slot v.neg small inside)]
  rfl

/-- Negating a register whose value is no number and no truth value. -/
theorem fails_neg (running : x.machine.isRunning = true)
    (framed : Framed s.limits x.machine) {slot : Nat} (small : slot < numberRange) {v : Value}
    (fetched : x.fetch? s = some (.unary .neg (.register (Int16.ofNat slot))))
    (here : x.machine.registers[x.machine.base + slot]? = some v) (dud : v.neg.isDud = true) :
    Fails s storing (x.demand x.machine.top) .badOperands x fun z =>
      z = ⟨{ x.machine.started with status := Fault.badOperands.status }, x.written,
        max x.peak x.machine.top⟩ := by
  refine .of_dispatch running framed fetched rfl ?_
  have load : load s (.register (Int16.ofNat slot)) x.machine.started =
      .ok v x.machine.started := load_register small here
  rw [dispatch_neg rfl load, dud, if_pos rfl]

/-! ### Steps that write a temporary -/

/-- The value of a step has been written to the slot of its destination. -/
theorem Match.assigned (linked : Linked s c) (h : Match s c l j x) {step : Step} {t : Int16}
    (found : l.steps[j.visit.pos]? = some step) (dest : step.dest? = some (.temp t)) {v : Value}
    (w : World) (running : y.machine.isRunning = true) (framed : Framed s.limits y.machine)
    (steps : ∀ limit, s.limits.steps = some limit → y.machine.steps ≤ limit)
    (peak : y.machine.top ≤ y.peak)
    (written : ∀ frame rest, x.written = frame :: rest →
      ∃ frame', y.written = frame' :: rest ∧ frame' ⊆ l.slot t :: frame)
    (func : y.machine.func = x.machine.func)
    (place : y.machine.place = x.machine.place + step.width)
    (world : y.machine.world = w) (base : y.machine.base = x.machine.base)
    (frames : y.machine.frames = x.machine.frames)
    (top : y.machine.top = max x.machine.top (x.machine.base + l.slot t + 1))
    (here : y.machine.registers[x.machine.base + l.slot t]? = some v)
    (same : ∀ i < x.machine.top, i ≠ x.machine.base + l.slot t →
      y.machine.registers[i]? = x.machine.registers[i]?) :
    Match s c l { j with visit := (j.visit.set t v).move, world := w } y := by
  have base_le := h.framed.seated.base_le
  refine h.stay running framed rfl rfl func ?_ world peak steps base frames (fun i hi => ?_)
    fun frame rest written' stands => ?_
  · rw [place, h.place]
    exact (Listing.place_succ found).symm
  · exact same i (by omega) (by omega)
  · obtain ⟨frame', written'', subset⟩ := written frame rest written'
    refine ⟨frame', written'', ?_⟩
    rw [top]
    exact stands.assign (h.orderly linked) (Listing.writes?_of_dest found dest) here same subset

/-- What becomes of the machine `x` in a step of the journey. -/
def Followed (s : Setting) (c : Chart) (l : Listing) (step : Step) (x : Tracked) : Turn → Prop
  | .on k => Goes s storing (l.demand step true x.machine) x (Arrived s c l step x k)
  | .astray => x.Barred s storing (Clean s c.arity)
  | .failed fault w => fault.IsOwn ∧
    Fails s storing (l.demand step false x.machine) fault x fun z =>
      z.machine.status = fault.status ∧ z.machine.world = w ∧
        z.machine.steps = x.machine.steps + step.cost false ∧
        z.peak = max x.peak (l.reach step false x.machine.base x.machine.top)
  | .finished v w =>
    Ends s storing ⟨x.machine.steps + 1, max x.machine.top 1, x.machine.depth⟩ x fun z =>
      z.machine.status = .ok ∧ z.machine.world = w ∧ z.machine.register? 0 = some v ∧
        z.machine.steps = x.machine.steps + 1 ∧ z.peak = x.peak

theorem getElem?_setIfInBounds_self {xs : Array Value} {i : Nat} {v : Value} (h : i < xs.size) :
    (xs.setIfInBounds i v)[i]? = some v :=
  Array.getElem?_setIfInBounds_self_of_lt h

theorem getElem?_setIfInBounds_of_ne {xs : Array Value} {i k : Nat} {v : Value} (h : k ≠ i) :
    (xs.setIfInBounds i v)[k]? = xs[k]? :=
  Array.getElem?_setIfInBounds_ne h.symm

/-- Copying a value. -/
theorem followed_copy (linked : Linked s c) (h : Match s c l j x) {t : Int16} {a : Address}
    (found : l.steps[j.visit.pos]? = some (.unary (.temp t) .nop a))
    (sound : a.Sound c.constants.size) :
    Followed s c l (.unary (.temp t) .nop a) x (j.act c l (.unary (.temp t) .nop a)) := by
  have orderly := h.orderly linked
  have writes := Listing.writes?_of_dest found rfl
  have small : l.slot t < numberRange :=
    orderly.slot_lt (Listing.known_of_named (Listing.named_of_writes writes))
  have reads := Listing.mem_reads found rfl List.mem_cons_self
  have fetched : x.fetch? s = some (.binary .mov (.register (Int16.ofNat (l.slot t)))
      (l.operand a)) :=
    h.fetch linked found (k := 0) rfl rfl rfl
  simp only [Journey.act]
  cases value : c.value? j.visit.temps a with
  | none =>
      exact h.barred_of_unset linked sound reads value h.running rfl fetched List.mem_cons_self
        (Instruction.operand?_binary_one _ _ _)
  | some v =>
      have load := h.load linked sound reads value (m := x.machine.started) rfl fun _ _ => rfl
      refine (goes_mov linked.lawful h.running h.framed small fetched load rfl rfl).mono
        fun within y ⟨is, framed⟩ => ?_
      have size := h.framed.size
      have room : max x.machine.top (x.machine.base + l.slot t + 1) ≤ s.limits.registers :=
        Nat.not_lt.1 fun short => within (.inl short)
      have inside : x.machine.base + l.slot t < x.machine.registers.size := by omega
      subst is
      refine ⟨⟨l, h.assigned linked found rfl j.world h.running framed
        (steps_le_of_not_exceeds within (Nat.le_refl _)) (Nat.le_max_right _ _)
        (fun frame rest written => ⟨l.slot t :: frame, ?_, List.Subset.refl _⟩) rfl rfl h.world
        rfl rfl rfl (getElem?_setIfInBounds_self inside)
        fun i _ ne => getElem?_setIfInBounds_of_ne ne⟩, rfl, ?_, rfl⟩
      · rw [Tracked.after, written]
        exact writtenAfter_mov s small _ _ _
      · show max x.peak _ = max (max x.peak _) _
        exact (max_eq_left (Nat.le_max_right _ _)).symm

theorem demand_unary (dest : Address) (op : Op) (a : Address) (ok : Bool) (m : Machine) :
    l.demand (.unary dest op a) ok m = ⟨m.steps + (Step.unary dest op a).width,
      max m.top (m.base + l.slot dest.id + 1), m.depth⟩ := rfl

theorem cost_unary (dest : Address) (op : Op) (a : Address) (ok : Bool) :
    (Step.unary dest op a).cost ok = (Step.unary dest op a).width := rfl

/-- Negating a value in place. -/
theorem followed_neg_self (linked : Linked s c) (h : Match s c l j x) {t : Int16}
    (found : l.steps[j.visit.pos]? = some (.unary (.temp t) .neg (.temp t))) :
    Followed s c l (.unary (.temp t) .neg (.temp t)) x
      (j.act c l (.unary (.temp t) .neg (.temp t))) := by
  have orderly := h.orderly linked
  have writes := Listing.writes?_of_dest found rfl
  have small : l.slot t < numberRange :=
    orderly.slot_lt (Listing.known_of_named (Listing.named_of_writes writes))
  have reads := Listing.mem_reads found rfl List.mem_cons_self
  have code : l.code j.visit.pos (.unary (.temp t) .neg (.temp t)) =
      [.unary .neg (.register (Int16.ofNat (l.slot t)))] := if_pos rfl
  have width : Step.width (.unary (.temp t) .neg (.temp t)) = 1 := if_pos rfl
  have sound : (Address.temp t).Sound c.constants.size := True.intro
  have fetched : x.fetch? s = some (.unary .neg (.register (Int16.ofNat (l.slot t)))) :=
    h.fetch linked found (k := 0) (by rw [code]; rfl) rfl rfl
  simp only [Journey.act]
  cases value : c.value? j.visit.temps (.temp t) with
  | none =>
      exact h.barred_of_unset linked sound reads value h.running rfl fetched List.mem_cons_self
        (Instruction.operand?_unary _ _)
  | some v =>
      obtain ⟨frame, rest, written, stands, -⟩ := h.stands
      obtain ⟨-, below, here⟩ := stands.set t v ⟨_, Nat.le_refl _, reads t rfl⟩ nofun value
      have top : max x.machine.top (x.machine.base + l.slot t + 1) = x.machine.top := by omega
      have demand : ∀ ok, l.demand (.unary (.temp t) .neg (.temp t)) ok x.machine =
          x.demand x.machine.top := by
        intro ok
        rw [demand_unary, width]
        show Demand.mk _ (max _ (_ + l.slot t + 1)) _ = _
        rw [top]
        rfl
      dsimp only
      cases number : v.neg.isDud with
      | true =>
          rw [if_pos rfl]
          refine ⟨by decide, ?_⟩
          rw [demand]
          refine (fails_neg h.running h.framed small fetched here number).mono fun z is => ?_
          subst is
          refine ⟨rfl, h.world, ?_, congrArg (max x.peak) top.symm⟩
          rw [cost_unary, width]
          rfl
      | false =>
          rw [if_neg Bool.false_ne_true]
          show Goes s storing _ x _
          rw [demand]
          refine (goes_neg linked.lawful h.running h.framed small fetched here number).mono
            fun within y ⟨is, framed⟩ => ?_
          have inside := (Array.getElem?_eq_some_iff.1 here).1
          subst is
          refine ⟨⟨l, h.assigned linked found rfl j.world h.running framed
            (steps_le_of_not_exceeds within (Nat.le_refl _)) (Nat.le_max_right _ _)
            (fun frame rest written => ⟨l.slot t :: frame, ?_, List.Subset.refl _⟩) rfl ?_ h.world
            rfl rfl rfl (getElem?_setIfInBounds_self inside)
            fun i _ ne => getElem?_setIfInBounds_of_ne ne⟩, ?_, ?_, rfl⟩
          · rw [Tracked.after, written]
            exact writtenAfter_neg s small _ _
          · rw [width]
            rfl
          · rw [cost_unary, width]
            rfl
          · show max x.peak _ = max (max x.peak _) _
            exact (max_eq_left (Nat.le_max_right _ _)).symm

/-- Negating a value into another temporary: it is moved there first. -/
theorem followed_neg (linked : Linked s c) (h : Match s c l j x) {t : Int16} {a : Address}
    (found : l.steps[j.visit.pos]? = some (.unary (.temp t) .neg a))
    (sound : a.Sound c.constants.size) (ne : Address.temp t ≠ a) :
    Followed s c l (.unary (.temp t) .neg a) x (j.act c l (.unary (.temp t) .neg a)) := by
  have orderly := h.orderly linked
  have writes := Listing.writes?_of_dest found rfl
  have small : l.slot t < numberRange :=
    orderly.slot_lt (Listing.known_of_named (Listing.named_of_writes writes))
  have reads := Listing.mem_reads found rfl List.mem_cons_self
  have code : l.code j.visit.pos (.unary (.temp t) .neg a) =
      [.binary .mov (.register (Int16.ofNat (l.slot t))) (l.operand a),
        .unary .neg (.register (Int16.ofNat (l.slot t)))] := if_neg ne
  have width : Step.width (.unary (.temp t) .neg a) = 2 := if_neg ne
  have fetched : x.fetch? s = some (.binary .mov (.register (Int16.ofNat (l.slot t)))
      (l.operand a)) :=
    h.fetch linked found (k := 0) (by rw [code]; rfl) rfl rfl
  simp only [Journey.act]
  cases value : c.value? j.visit.temps a with
  | none =>
      exact h.barred_of_unset linked sound reads value h.running rfl fetched List.mem_cons_self
        (Instruction.operand?_binary_one _ _ _)
  | some v =>
      have load := h.load linked sound reads value (m := x.machine.started) rfl fun _ _ => rfl
      have size := h.framed.size
      have moved := (goes_mov linked.lawful h.running h.framed small fetched load rfl rfl).mono
        fun within y arrived => (show
          (y = x.after s storing (.binary .mov (.register (Int16.ofNat (l.slot t)))
            (l.operand a)) (x.machine.started.assigned (l.slot t) v).advanced ∧
          Framed s.limits y.machine) ∧
          x.machine.base + l.slot t < x.machine.registers.size from
        ⟨arrived, by
          have room : max x.machine.top (x.machine.base + l.slot t + 1) ≤ s.limits.registers :=
            Nat.not_lt.1 fun short => within (.inl short)
          omega⟩)
      have second : ∀ {y : Tracked}, y.machine.func = x.machine.func →
          y.machine.place = x.machine.place + 1 →
          y.fetch? s = some (.unary .neg (.register (Int16.ofNat (l.slot t)))) :=
        fun func place => h.fetch linked found (k := 1) (by rw [code]; rfl) func place
      have demand : ∀ ok, l.demand (.unary (.temp t) .neg a) ok x.machine =
          ⟨x.machine.steps + 2, max x.machine.top (x.machine.base + l.slot t + 1),
            x.machine.depth⟩ := by
        intro ok
        rw [demand_unary, width]
        rfl
      have top : max (max x.machine.top (x.machine.base + l.slot t + 1))
          (x.machine.base + l.slot t + 1) = max x.machine.top (x.machine.base + l.slot t + 1) :=
        max_eq_left (Nat.le_max_right _ _)
      have peak : max (max x.peak (max x.machine.top (x.machine.base + l.slot t + 1)))
          (max x.machine.top (x.machine.base + l.slot t + 1)) =
          max x.peak (max x.machine.top (x.machine.base + l.slot t + 1)) :=
        max_eq_left (Nat.le_max_right _ _)
      dsimp only
      cases number : v.neg.isDud with
      | true =>
          rw [if_pos rfl]
          refine ⟨by decide, ?_⟩
          rw [demand]
          refine moved.fails ⟨by simp [Tracked.demand], Nat.le_refl _, Nat.le_refl _⟩ ?_
          rintro y ⟨⟨is, framed⟩, inside⟩
          have running : y.machine.isRunning = true := is ▸ h.running
          have fetched' := second (y := y) (by rw [is]; rfl) (by rw [is]; rfl)
          have here : y.machine.registers[y.machine.base + l.slot t]? = some v := by
            rw [is]
            exact getElem?_setIfInBounds_self inside
          have demand' : y.demand y.machine.top = ⟨x.machine.steps + 2,
              max x.machine.top (x.machine.base + l.slot t + 1), x.machine.depth⟩ := by
            rw [is]
            rfl
          rw [← demand']
          refine (fails_neg running framed small fetched' here number).mono fun z is' => ?_
          subst is' is
          refine ⟨rfl, h.world, ?_, peak⟩
          rw [cost_unary, width]
          rfl
      | false =>
          rw [if_neg Bool.false_ne_true]
          show Goes s storing _ x _
          rw [demand]
          refine moved.bind ⟨by simp [Tracked.demand], Nat.le_refl _, Nat.le_refl _⟩ ?_
          rintro y ⟨⟨is, framed⟩, inside⟩
          have running : y.machine.isRunning = true := is ▸ h.running
          have fetched' := second (y := y) (by rw [is]; rfl) (by rw [is]; rfl)
          have here : y.machine.registers[y.machine.base + l.slot t]? = some v := by
            rw [is]
            exact getElem?_setIfInBounds_self inside
          have demand' : y.demand y.machine.top = ⟨x.machine.steps + 2,
              max x.machine.top (x.machine.base + l.slot t + 1), x.machine.depth⟩ := by
            rw [is]
            rfl
          rw [← demand']
          refine (goes_neg linked.lawful running framed small fetched' here number).mono ?_
          rintro within z ⟨is', framed'⟩
          rw [demand'] at within
          subst is' is
          refine ⟨⟨l, h.assigned linked found rfl j.world h.running framed'
            (steps_le_of_not_exceeds within (Nat.le_refl _)) (Nat.le_max_right _ _)
            (fun frame rest written => ⟨l.slot t :: l.slot t :: frame, ?_, ?_⟩) rfl ?_ h.world
            rfl rfl top (getElem?_setIfInBounds_self ?_)
            fun i _ ne => ?_⟩, ?_, ?_, ?_⟩
          · rw [Tracked.after, Tracked.after, written]
            dsimp only
            rw [writtenAfter_mov s small, writtenAfter_neg s small]
          · simp
          · rw [width]
            rfl
          · show _ < (x.machine.registers.setIfInBounds _ _).size
            rw [Array.size_setIfInBounds]
            exact inside
          · exact (getElem?_setIfInBounds_of_ne ne).trans (getElem?_setIfInBounds_of_ne ne)
          · rw [cost_unary, width]
            rfl
          · rfl
          · show (_, max (max _ _) _) :: _ = (_, max _ _) :: _
            exact congrArg (fun top => (_, top) :: _) top

/-! ### Operators -/

/-- The machine after two operands were put on top of the frame. -/
def Machine.laid (m : Machine) (v w : Value) : Machine :=
  { m with
    registers := (m.registers.setIfInBounds m.top v).setIfInBounds (m.top + 1) w
    top := m.top + 2
    place := m.place + 2
    steps := m.steps + 2 }

/-- The machine `y` is `x` after two operands were put on top of the frame. -/
structure Laid (s : Setting) (x : Tracked) (v w : Value) (y : Tracked) : Prop where
  eq : y = ⟨x.machine.laid v w, x.written, max x.peak (x.machine.top + 2)⟩
  framed : Framed s.limits y.machine
  room : y.machine.base + 2 ≤ y.machine.top
  left : y.machine.registers[y.machine.top - 2]? = some v
  right : y.machine.registers[y.machine.top - 1]? = some w

theorem laid_of_eq (framed : Framed s.limits x.machine) {v w : Value}
    (room : x.machine.top + 2 ≤ s.limits.registers)
    (eq : y = ⟨x.machine.laid v w, x.written, max x.peak (x.machine.top + 2)⟩)
    (framed' : Framed s.limits y.machine) : Laid s x v w y := by
  have size := framed.size
  have base_le := framed.seated.base_le
  subst eq
  refine ⟨rfl, framed', Nat.add_le_add_right base_le 2, ?_, ?_⟩
  · exact (getElem?_setIfInBounds_of_ne (Nat.ne_of_lt (Nat.lt_succ_self x.machine.top))).trans
      (getElem?_setIfInBounds_self (by omega))
  · refine getElem?_setIfInBounds_self ?_
    show x.machine.top + 1 < (x.machine.registers.setIfInBounds _ _).size
    rw [Array.size_setIfInBounds]
    omega

/-- Pushing both operands of an operator. -/
theorem goes_operands (lawful : s.Lawful) (running : x.machine.isRunning = true)
    (framed : Framed s.limits x.machine) {left right : Operand} {v w : Value}
    (first : x.fetch? s = some (.unary .push left))
    (second : ∀ {y : Tracked}, y.machine.func = x.machine.func →
      y.machine.place = x.machine.place + 1 → y.fetch? s = some (.unary .push right))
    (load : ∀ {m : Machine}, m.base = x.machine.base →
      (∀ i < x.machine.top, m.registers[i]? = x.machine.registers[i]?) →
      load s left m = .ok v m ∧ Machine.load s right m = .ok w m) :
    Goes s storing ⟨x.machine.steps + 2, x.machine.top + 2, x.machine.depth⟩ x (Laid s x v w) := by
  have size := framed.size
  have load₁ := (load (m := x.machine.started) rfl fun _ _ => rfl).1
  refine (goes_push lawful running framed first load₁).bind
    ⟨by simp [Tracked.demand], by simp [Tracked.demand], Nat.le_refl _⟩ ?_
  rintro y ⟨is, framed'⟩
  have running' : y.machine.isRunning = true := is ▸ running
  have second' := second (y := y) (by rw [is]; rfl) (by rw [is]; rfl)
  have load' := (load (m := y.machine.started) (by rw [is]; rfl) fun i below => by
    rw [is]
    exact getElem?_setIfInBounds_of_ne (Nat.ne_of_lt below)).2
  have demand : y.demand (y.machine.top + 1) =
      ⟨x.machine.steps + 2, x.machine.top + 2, x.machine.depth⟩ := by
    rw [is]
    rfl
  rw [← demand]
  refine (goes_push lawful running' framed' second' load').mono ?_
  rintro within z ⟨is', framed''⟩
  have room : x.machine.top + 2 ≤ s.limits.registers :=
    Nat.not_lt.1 fun short => within (.inl (demand ▸ short))
  refine laid_of_eq framed room ?_ framed''
  rw [is', is]
  refine congrArg₂ (Tracked.mk · x.written ·) rfl ?_
  show max (max x.peak (x.machine.top + 1)) (x.machine.top + 1 + 1) = _
  omega

/-- An operator with its operands on top of the frame. -/
theorem goes_binary (lawful : s.Lawful) (running : x.machine.isRunning = true)
    (framed : Framed s.limits x.machine) {op : BinaryOp} {v w r : Value}
    (fetched : x.fetch? s = some (.nonary (.binary op)))
    (room : x.machine.base + 2 ≤ x.machine.top)
    (left : x.machine.registers[x.machine.top - 2]? = some v)
    (right : x.machine.registers[x.machine.top - 1]? = some w) (outcome : op.outcome v w = .ok r) :
    Goes s storing (x.demand x.machine.top) x fun y =>
      y = ⟨(x.machine.started.combined r).advanced, x.written, max x.peak (x.machine.top - 1)⟩ ∧
        Framed s.limits y.machine := by
  have unstored : (Instruction.nonary (.binary op)).stored? = none := rfl
  have opcode : (Instruction.nonary (.binary op)).op = .binary op := rfl
  have ok : dispatch s (.nonary (.binary op)) x.machine.started =
      .ok () (x.machine.started.combined r).advanced := by
    rw [dispatch_binary (m := x.machine.started) room left right, outcome]
  refine (Goes.of_dispatch_free storing lawful.isConfined running framed fetched ok).mono
    fun _ y ⟨is, framed'⟩ => ⟨?_, framed'⟩
  rw [is, Tracked.after, writtenAfter_of_unstored s opcode nofun nofun unstored]
  rfl

/-- An operator that refuses its operands. -/
theorem fails_binary (running : x.machine.isRunning = true)
    (framed : Framed s.limits x.machine) {op : BinaryOp} {v w : Value} {fault : Fault}
    (fetched : x.fetch? s = some (.nonary (.binary op)))
    (room : x.machine.base + 2 ≤ x.machine.top)
    (left : x.machine.registers[x.machine.top - 2]? = some v)
    (right : x.machine.registers[x.machine.top - 1]? = some w)
    (outcome : op.outcome v w = .error fault) :
    Fails s storing (x.demand x.machine.top) fault x fun z =>
      z = ⟨{ x.machine.started with top := x.machine.top - 2, status := fault.status }, x.written,
        max x.peak (x.machine.top - 2)⟩ := by
  have error : dispatch s (.nonary (.binary op)) x.machine.started =
      .error fault { x.machine.started with top := x.machine.top - 2 } := by
    rw [dispatch_binary (m := x.machine.started) room left right, outcome]
    rfl
  exact .of_dispatch running framed fetched (BinaryOp.isOwn_of_outcome outcome).2 error

/-- The machine after an operator was computed and its result moved to a register
of the frame. -/
def Machine.operated (m : Machine) (slot : Nat) (v w r : Value) : Machine :=
  { m with
    registers := (((m.registers.setIfInBounds m.top v).setIfInBounds
      (m.top + 1) w).setIfInBounds m.top r).setIfInBounds (m.base + slot) r
    top := max m.top (m.base + slot + 1)
    place := m.place + 4
    steps := m.steps + 4
    flag := ((m.laid v w).combined r).flag }

/-- The machine after the operator, with its result on top of the frame. -/
theorem combined_laid (m : Machine) (v w r : Value) :
    ((m.laid v w).started.combined r).advanced = { m with
      registers := ((m.registers.setIfInBounds m.top v).setIfInBounds
        (m.top + 1) w).setIfInBounds m.top r
      top := m.top + 1
      place := m.place + 3
      steps := m.steps + 3
      flag := ((m.laid v w).combined r).flag } := by
  simp only [Machine.laid, Machine.started, Machine.combined, Machine.advanced,
    Nat.add_sub_cancel]
  rfl

/-- Computing an operator into a register. -/
theorem goes_operator (lawful : s.Lawful) (running : x.machine.isRunning = true)
    (framed : Framed s.limits x.machine) {slot : Nat} (small : slot < numberRange) {op : BinaryOp}
    {v w r : Value} (laid : Laid s x v w y)
    (third : ∀ {y : Tracked}, y.machine.func = x.machine.func →
      y.machine.place = x.machine.place + 2 → y.fetch? s = some (.nonary (.binary op)))
    (fourth : ∀ {y : Tracked}, y.machine.func = x.machine.func →
      y.machine.place = x.machine.place + 3 →
      y.fetch? s = some (.binary .mov (.register (Int16.ofNat slot)) .stack))
    (outcome : op.outcome v w = .ok r) :
    Goes s storing ⟨x.machine.steps + 4, max (x.machine.top + 2) (x.machine.base + slot + 1),
      x.machine.depth⟩ y fun z =>
      z.machine = x.machine.operated slot v w r ∧ Framed s.limits z.machine ∧
        (∀ frame rest, x.written = frame :: rest → z.written = (slot :: frame) :: rest) ∧
        z.peak = max (max x.peak (max (x.machine.top + 2) (x.machine.base + slot + 1)))
          (max x.machine.top (x.machine.base + slot + 1)) := by
  have is := laid.eq
  have base_le := framed.seated.base_le
  have room : x.machine.top + 2 ≤ s.limits.registers := by
    have top_le := laid.framed.nested.bounds.2
    rw [is] at top_le
    exact top_le
  have size := framed.size
  have demand : y.demand y.machine.top =
      ⟨x.machine.steps + 3, x.machine.top + 2, x.machine.depth⟩ := by
    rw [is]
    rfl
  have computed := goes_binary lawful (is ▸ running) laid.framed
    (third (y := y) (by rw [is]; rfl) (by rw [is]; rfl)) laid.room laid.left laid.right outcome
  rw [demand] at computed
  refine computed.bind ⟨Nat.le_succ _, Nat.le_max_left _ _, Nat.le_refl _⟩
    fun z ⟨is', framed'⟩ => ?_
  rw [is] at is'
  dsimp only at is'
  rw [combined_laid] at is'
  have inside : x.machine.top <
      ((x.machine.registers.setIfInBounds x.machine.top v).setIfInBounds
        (x.machine.top + 1) w).size := by
    simp only [Array.size_setIfInBounds]
    omega
  have loaded : load s .stack z.machine.started =
      .ok r { z.machine.started with top := x.machine.top } := by
    subst is'
    exact load_stack (Nat.lt_succ_of_le base_le) (getElem?_setIfInBounds_self inside)
  have fetched : z.fetch? s = some (.binary .mov (.register (Int16.ofNat slot)) .stack) :=
    fourth (by rw [is']) (by rw [is'])
  have moved := goes_mov lawful (is' ▸ running) framed' small fetched loaded rfl rfl
  have demand' : z.demand (max z.machine.top (z.machine.base + slot + 1)) =
      ⟨x.machine.steps + 4, max (x.machine.top + 1) (x.machine.base + slot + 1),
        x.machine.depth⟩ := by
    rw [is']
    rfl
  rw [demand'] at moved
  have wide : Goes s storing ⟨x.machine.steps + 4,
      max (x.machine.top + 2) (x.machine.base + slot + 1), x.machine.depth⟩ z _ :=
    moved.enlarge ⟨Nat.le_refl _, by dsimp only; omega, Nat.le_refl _⟩ (by
      rintro (short | rest)
      · exact .inl (by dsimp only at short ⊢; omega)
      · exact .inr rest)
  refine wide.mono fun _ u ⟨is'', framed''⟩ => ⟨?_, framed'', fun frame rest written => ?_, ?_⟩
  · rw [is'', is']
    simp only [Tracked.after, Machine.advanced, Machine.assigned, Machine.started,
      Machine.operated]
  · rw [is'', is']
    simp only [Tracked.after]
    rw [written, writtenAfter_mov s small]
  · rw [is'', is']
    show max (max (max x.peak (x.machine.top + 2)) (x.machine.top + 2 - 1))
      (max x.machine.top (x.machine.base + slot + 1)) = _
    omega

/-- An operator that refuses its operands, after they were put on top. -/
theorem fails_operator (running : x.machine.isRunning = true) {op : BinaryOp} {v w : Value}
    {fault : Fault} (laid : Laid s x v w y)
    (third : ∀ {y : Tracked}, y.machine.func = x.machine.func →
      y.machine.place = x.machine.place + 2 → y.fetch? s = some (.nonary (.binary op)))
    (outcome : op.outcome v w = .error fault) :
    Fails s storing ⟨x.machine.steps + 3, x.machine.top + 2, x.machine.depth⟩ fault y fun z =>
      z.machine.status = fault.status ∧ z.machine.world = x.machine.world ∧
        z.machine.steps = x.machine.steps + 3 ∧ z.peak = max x.peak (x.machine.top + 2) := by
  have is := laid.eq
  have demand : y.demand y.machine.top =
      ⟨x.machine.steps + 3, x.machine.top + 2, x.machine.depth⟩ := by
    rw [is]
    rfl
  have fails := fails_binary (is ▸ running) laid.framed
    (third (y := y) (by rw [is]; rfl) (by rw [is]; rfl)) laid.room laid.left laid.right outcome
  rw [demand] at fails
  refine fails.mono fun z is' => ?_
  subst is' is
  refine ⟨rfl, rfl, rfl, ?_⟩
  show max (max x.peak (x.machine.top + 2)) x.machine.top = max x.peak (x.machine.top + 2)
  omega

/-- Computing an operator. -/
theorem followed_binary (linked : Linked s c) (h : Match s c l j x) {t : Int16} {op : BinaryOp}
    {a b : Address} (found : l.steps[j.visit.pos]? = some (.binary (.temp t) (.binary op) a b))
    (sound : a.Sound c.constants.size) (sound' : b.Sound c.constants.size) :
    Followed s c l (.binary (.temp t) (.binary op) a b) x
      (j.act c l (.binary (.temp t) (.binary op) a b)) := by
  have orderly := h.orderly linked
  have writes := Listing.writes?_of_dest found rfl
  have small : l.slot t < numberRange :=
    orderly.slot_lt (Listing.known_of_named (Listing.named_of_writes writes))
  have reads := Listing.mem_reads found rfl List.mem_cons_self
  have reads' := Listing.mem_reads found rfl (List.mem_cons_of_mem a List.mem_cons_self)
  have fetched : ∀ {k : Nat} {i : Instruction},
      (l.code j.visit.pos (.binary (.temp t) (.binary op) a b))[k]? = some i →
      ∀ {y : Tracked}, y.machine.func = x.machine.func →
        y.machine.place = x.machine.place + k → y.fetch? s = some i :=
    fun {_} {_} code {_} func place => h.fetch linked found code func place
  have first : x.fetch? s = some (.unary .push (l.operand a)) := fetched (k := 0) rfl rfl rfl
  have second {y : Tracked} (func : y.machine.func = x.machine.func)
      (place : y.machine.place = x.machine.place + 1) :
      y.fetch? s = some (.unary .push (l.operand b)) := fetched (k := 1) rfl func place
  have third {y : Tracked} (func : y.machine.func = x.machine.func)
      (place : y.machine.place = x.machine.place + 2) :
      y.fetch? s = some (.nonary (.binary op)) := fetched (k := 2) rfl func place
  have fourth {y : Tracked} (func : y.machine.func = x.machine.func)
      (place : y.machine.place = x.machine.place + 3) :
      y.fetch? s = some (.binary .mov (.register (Int16.ofNat (l.slot t))) .stack) :=
    fetched (k := 3) rfl func place
  have demand : ∀ ok, (l.demand (.binary (.temp t) (.binary op) a b) ok x.machine) =
      ⟨x.machine.steps + (if ok then 4 else 3),
        if ok then max (x.machine.top + 2) (x.machine.base + l.slot t + 1)
        else x.machine.top + 2, x.machine.depth⟩ := fun _ => rfl
  simp only [Journey.act]
  cases value : c.value? j.visit.temps a with
  | none =>
      exact h.barred_of_unset linked sound reads value h.running rfl first List.mem_cons_self
        (Instruction.operand?_unary _ _)
  | some v =>
      have load {m : Machine} (base : m.base = x.machine.base)
          (registers : ∀ i < x.machine.top, m.registers[i]? = x.machine.registers[i]?) :=
        h.load linked sound reads value base registers
      cases value' : c.value? j.visit.temps b with
      | none =>
          have pushed := goes_push linked.lawful h.running h.framed first
            (load (m := x.machine.started) rfl fun _ _ => rfl)
          refine pushed.barred fun y ⟨is, framed⟩ => ?_
          refine h.barred_of_unset linked sound' reads' value' (is ▸ h.running) ?_
            (second (by rw [is]; rfl) (by rw [is]; rfl)) List.mem_cons_self
            (Instruction.operand?_unary _ _)
          rw [is]
      | some w =>
          have operands := goes_operands linked.lawful h.running h.framed first second
            fun base registers => ⟨load base registers,
              h.load linked sound' reads' value' base registers⟩
          dsimp only
          cases outcome : op.outcome v w with
          | error fault =>
              refine ⟨BinaryOp.isOwn_of_outcome outcome, ?_⟩
              rw [demand]
              refine operands.fails ⟨Nat.le_succ _, Nat.le_refl _, Nat.le_refl _⟩ fun y laid => ?_
              refine (fails_operator h.running laid third outcome).mono
                fun z ⟨status, world, steps, peak⟩ => ⟨status, world.trans h.world, steps, peak⟩
          | ok r =>
              show Goes s storing _ x _
              rw [demand]
              refine operands.bind ⟨Nat.le_add_right _ 2, Nat.le_max_left _ _, Nat.le_refl _⟩
                fun y laid => ?_
              refine (goes_operator linked.lawful h.running h.framed small laid third fourth
                outcome).mono fun within z ⟨is, framed, written, peak⟩ => ?_
              have size := h.framed.size
              have room : max (x.machine.top + 2) (x.machine.base + l.slot t + 1) ≤
                  s.limits.registers := Nat.not_lt.1 fun short => within (.inl short)
              refine ⟨⟨l, h.assigned linked found rfl j.world (is ▸ h.running) framed
                (steps_le_of_not_exceeds within ?_) ?_
                (fun frame rest here => ⟨_, written frame rest here, List.Subset.refl _⟩)
                (by rw [is]; rfl) (by rw [is]; rfl) (is ▸ h.world) (by rw [is]; rfl) (by rw [is]; rfl)
                (by rw [is]; rfl) ?_ fun i below ne => ?_⟩, by rw [is]; rfl, ?_, by rw [is]; rfl⟩
              · rw [is]
                exact Nat.le_refl _
              · rw [is, peak]
                exact Nat.le_max_right _ _
              · rw [is]
                refine getElem?_setIfInBounds_self ?_
                simp only [Array.size_setIfInBounds]
                omega
              · rw [is]
                refine (getElem?_setIfInBounds_of_ne ne).trans ?_
                refine (getElem?_setIfInBounds_of_ne (Nat.ne_of_lt below)).trans ?_
                refine (getElem?_setIfInBounds_of_ne (Nat.ne_of_lt (Nat.lt_succ_of_lt below))).trans ?_
                exact getElem?_setIfInBounds_of_ne (Nat.ne_of_lt below)
              · rw [peak, is]
                rfl

end RegisterCode
