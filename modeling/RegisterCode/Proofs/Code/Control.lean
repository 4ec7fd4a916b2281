import RegisterCode.Proofs.Code.Writing

/-!
A machine follows a journey through the steps that write no temporary of their
own frame: markers, jumps, calls and returns.
-/

namespace RegisterCode

open Machine Tracked

variable {s : Setting} {c : Chart} {l : Listing} {j : Journey} {x y : Tracked}

/-- A machine at another place of its frame, where all else that matters is as
before. -/
structure Passed (s : Setting) (x : Tracked) (place : Nat) (y : Tracked) : Prop where
  running : y.machine.isRunning = true
  framed : Framed s.limits y.machine
  steps : ∀ limit, s.limits.steps = some limit → y.machine.steps ≤ limit
  written : y.written = x.written
  peak : y.peak = x.peak
  func : y.machine.func = x.machine.func
  place : y.machine.place = place
  world : y.machine.world = x.machine.world
  base : y.machine.base = x.machine.base
  top : y.machine.top = x.machine.top
  frames : y.machine.frames = x.machine.frames
  registers : y.machine.registers = x.machine.registers

namespace Match

theorem passed (h : Match s c l j x) {v : Visit} (passed : Passed s x (l.place v.pos) y)
    (func : v.func = j.visit.func)
    (stands : ∀ frame, Stands l j.visit none x.machine.base x.machine.top x.machine.top
      x.machine.registers frame → Stands l v none x.machine.base x.machine.top x.machine.top
      x.machine.registers frame) : Match s c l (j.withVisit v) y := by
  refine h.stay passed.running passed.framed func rfl passed.func passed.place
    (passed.world.trans h.world) ?_ passed.steps passed.base passed.frames (fun i _ => ?_)
    fun frame rest written here => ⟨frame, passed.written.trans written, ?_⟩
  · rw [passed.top, passed.peak]
    exact h.peak
  · rw [passed.registers]
  · rw [passed.top, passed.registers]
    exact stands frame here

/-- The machine is behind a step that writes nothing. -/
theorem moved (h : Match s c l j x) {step : Step} (found : l.steps[j.visit.pos]? = some step)
    (silent : step.dest? = none) (passed : Passed s x (x.machine.place + step.width) y) :
    Match s c l (j.withVisit j.visit.move) y := by
  have place : x.machine.place + step.width = l.place j.visit.move.pos := by
    rw [h.place]
    exact (Listing.place_succ found).symm
  have writes : l.writes? j.visit.pos = none := by
    simp [Listing.writes?, found, silent]
  exact h.passed (place ▸ passed) rfl fun frame stands => stands.move writes

/-- The machine is where a jump leads. -/
theorem landed (linked : Linked s c) (h : Match s c l j x) {target : Nat}
    (landed : l.landing j.visit.pos = some target) (passed : Passed s x (l.place target) y) :
    Match s c l (j.withVisit (j.visit.jump target)) y := by
  obtain ⟨ahead, nop⟩ := (h.orderly linked).landing_spec landed
  exact h.passed passed rfl fun frame stands => stands.jump ahead nop

end Match

/-- An instruction that only leads to another place. -/
theorem goes_place (lawful : s.Lawful) (h : Match s c l j x) {i : Instruction} {op : Opcode}
    (fetched : x.fetch? s = some i) (is : i.op = op) (call : op ≠ .call) (ret : op ≠ .ret)
    (unstored : i.stored? = none) (place : Nat) (flag : Bool)
    (ok : dispatch s i x.machine.started =
      .ok () { x.machine.started with place := place, flag := flag }) :
    Goes s storing (x.demand x.machine.top) x fun y =>
      Passed s x place y ∧ y.machine.steps = x.machine.steps + 1 := by
  refine (Goes.of_dispatch_free storing lawful.isConfined h.running h.framed fetched ok).mono
    fun within y ⟨is', framed⟩ => ?_
  have peak := h.peak
  subst is'
  refine ⟨⟨h.running, framed, steps_le_of_not_exceeds within (Nat.le_refl _),
    writtenAfter_of_unstored s is call ret unstored _, ?_, rfl, rfl, rfl, rfl, rfl, rfl, rfl⟩, rfl⟩
  show max x.peak x.machine.top = x.peak
  omega

/-- What a step that leads to another place comes to. -/
theorem arrived_of_passed (h : Match s c l j x) {step : Step} {k : Journey} {place : Nat}
    (arrived : Match s c l k y) (passed : Passed s x place y)
    (steps : y.machine.steps = x.machine.steps + step.cost true)
    (reach : l.reach step true x.machine.base x.machine.top = x.machine.top)
    (shift : ∀ bounds, l.shift step bounds = bounds) : Arrived s c l step x k y := by
  have peak := h.peak
  refine ⟨⟨l, arrived⟩, steps, ?_, ?_⟩
  · rw [passed.peak, reach, passed.top]
    omega
  · rw [shift, bounds, bounds, passed.base, passed.top, passed.frames]

theorem Match.not_exceeds (h : Match s c l j x) :
    ¬ Demand.Exceeds ⟨x.machine.steps, x.machine.top, x.machine.depth⟩ s.limits := by
  have top_le := h.framed.nested.bounds.2
  have depth_le := h.framed.depth_le
  have operands_le := h.framed.operands_le
  rw [size_operands h.framed] at operands_le
  rintro (short | ⟨limit, known, short⟩ | short | short)
  · exact absurd top_le (Nat.not_le.2 short)
  · exact absurd (h.steps limit known) (Nat.not_le.2 short)
  · exact absurd depth_le (Nat.not_le.2 short)
  · exact absurd operands_le (Nat.not_le.2 short)

/-- The markers have no instructions. -/
theorem followed_marker (h : Match s c l j x) {op : Op}
    (found : l.steps[j.visit.pos]? = some (.act op)) (silent : op ≠ .nop) :
    Followed s c l (.act op) x (j.act c l (.act op)) := by
  have width : (Step.act op).width = 0 := by
    cases op with
    | nop => exact absurd rfl silent
    | _ => rfl
  have cost : (Step.act op).cost true = 0 := width
  have passed : Passed s x (x.machine.place + (Step.act op).width) x := by
    rw [width]
    exact ⟨h.running, h.framed, h.steps, rfl, rfl, rfl, rfl, rfl, rfl, rfl, rfl, rfl⟩
  have demand : l.demand (.act op) true x.machine =
      ⟨x.machine.steps, x.machine.top, x.machine.depth⟩ := by
    rw [Listing.demand, cost]
    rfl
  show Goes s storing _ x _
  rw [demand]
  refine .inr ⟨h.not_exceeds, 0, x, .refl x, ?_⟩
  refine arrived_of_passed h (h.moved found rfl passed) passed ?_ rfl fun bounds => ?_
  · rw [cost]
    rfl
  · cases bounds <;> rfl

/-- The instruction that does nothing. -/
theorem followed_nop (linked : Linked s c) (h : Match s c l j x)
    (found : l.steps[j.visit.pos]? = some (.act .nop)) :
    Followed s c l (.act .nop) x (j.act c l (.act .nop)) := by
  have fetched : x.fetch? s = some (.nonary .nop) := h.fetch linked found (k := 0) rfl rfl rfl
  have op : (Instruction.nonary .nop).op = .nop := rfl
  refine (goes_place linked.lawful h fetched op (by decide) (by decide) rfl
    (x.machine.place + 1) x.machine.flag rfl).mono fun _ y ⟨passed, steps⟩ => ?_
  refine arrived_of_passed h (h.moved found rfl passed) passed steps rfl fun bounds => ?_
  cases bounds <;> rfl

/-- The operand of a jump that lands. -/
theorem target_of_landing (linked : Linked s c) (h : Match s c l j x) {target : Nat}
    (landed : l.landing j.visit.pos = some target) :
    ∃ n : Int16, l.target j.visit.pos = .immediate n ∧ 0 ≤ n ∧
      n.toNatClampNeg = l.place target := by
  obtain ⟨chunk, -, assembled⟩ := linked.assembled _ _ h.known
  have small := assembled.landing _ _ landed
  refine ⟨Int16.ofNat (l.place target), ?_, zero_le_ofNat_of_small small,
    toNatClampNeg_ofNat_of_small small⟩
  rw [Listing.target, landed]
  rfl

/-- Jumping. -/
theorem followed_jump (linked : Linked s c) (h : Match s c l j x) {a : Address}
    (found : l.steps[j.visit.pos]? = some (.actOn .jump a)) :
    Followed s c l (.actOn .jump a) x (j.act c l (.actOn .jump a)) := by
  have marker : l.markers[j.visit.pos]? = some .jump := by
    simp [Listing.markers, found, Step.marker]
  obtain ⟨target, landed, -, -⟩ := (h.orderly linked).lands marker (.inl rfl)
  obtain ⟨n, operand, named, place⟩ := target_of_landing linked h landed
  have fetched : x.fetch? s = some (.unary .jump (.immediate n)) :=
    h.fetch linked found (k := 0) (by rw [← operand]; rfl) rfl rfl
  have op : (Instruction.unary .jump (.immediate n)).op = .jump := rfl
  have lands : j.act c l (.actOn .jump a) = .on (j.withVisit (j.visit.jump target)) := by
    simp only [Journey.act, Journey.land, landed]
  rw [lands]
  refine (goes_place linked.lawful h fetched op (by decide) (by decide) rfl
    (l.place target) x.machine.flag ?_).mono ?_
  · rw [dispatch_jump named, place]
    rfl
  · rintro _ y ⟨passed, steps⟩
    refine arrived_of_passed h (h.landed linked landed passed) passed steps rfl fun bounds => ?_
    cases bounds <;> rfl

/-- Jumping when a condition fails. -/
theorem followed_jumpElse (linked : Linked s c) (h : Match s c l j x) {a b : Address}
    (found : l.steps[j.visit.pos]? = some (.actOnTwo .jumpElse a b))
    (sound : a.Sound c.constants.size) :
    Followed s c l (.actOnTwo .jumpElse a b) x (j.act c l (.actOnTwo .jumpElse a b)) := by
  have marker : l.markers[j.visit.pos]? = some .jumpElse := by
    simp [Listing.markers, found, Step.marker]
  obtain ⟨target, landed, -, -⟩ := (h.orderly linked).lands marker (.inr rfl)
  obtain ⟨n, operand, named, place⟩ := target_of_landing linked h landed
  have fetched : x.fetch? s = some (.binary .jumpElse (l.operand a) (.immediate n)) :=
    h.fetch linked found (k := 0) (by rw [← operand]; rfl) rfl rfl
  have op : (Instruction.binary .jumpElse (l.operand a) (.immediate n)).op = .jumpElse := rfl
  have window : (Step.actOnTwo .jumpElse a b).window? = none := by
    obtain ⟨space, id⟩ := b
    cases space <;> rfl
  have reads := Listing.mem_reads found window List.mem_cons_self
  simp only [Journey.act]
  cases value : c.value? j.visit.temps a with
  | none =>
      exact h.barred_of_unset linked sound reads value h.running rfl fetched List.mem_cons_self
        (Instruction.operand?_binary_zero _ _ _)
  | some v =>
      have load := h.load linked sound reads value (m := x.machine.started) rfl fun _ _ => rfl
      have dispatched := dispatch_jumpElse named load
      dsimp only
      cases truth : v.truthy? with
      | none =>
          rw [truth] at dispatched
          refine ⟨by decide, ?_⟩
          refine (Fails.of_dispatch h.running h.framed fetched (by decide) dispatched).mono
            fun z is => ?_
          subst is
          exact ⟨rfl, h.world, rfl, rfl⟩
      | some cond =>
          rw [truth] at dispatched
          cases cond with
          | true =>
              refine (goes_place linked.lawful h fetched op (by decide) (by decide) rfl
                (x.machine.place + 1) _ dispatched).mono ?_
              rintro _ y ⟨passed, steps⟩
              refine arrived_of_passed h (h.moved found rfl passed) passed steps rfl
                fun bounds => ?_
              cases bounds <;> rfl
          | false =>
              simp only [Journey.land, landed]
              refine (goes_place linked.lawful h fetched op (by decide) (by decide) rfl
                (l.place target) _ (place ▸ dispatched)).mono ?_
              rintro _ y ⟨passed, steps⟩
              refine arrived_of_passed h (h.landed linked landed passed) passed steps rfl
                fun bounds => ?_
              cases bounds <;> rfl

/-- Falling off the end of a function. -/
theorem ended (linked : Linked s c) (h : Match s c l j x)
    (found : l.steps[j.visit.pos]? = none) :
    Fails s storing ⟨x.machine.steps + 1, x.machine.top, x.machine.depth⟩ .endOfCode x fun z =>
      z.machine.status = Fault.endOfCode.status ∧ z.machine.world = j.world ∧
        z.machine.steps = x.machine.steps + 1 ∧ z.peak = x.peak := by
  obtain ⟨chunk, here, assembled⟩ := linked.assembled _ _ h.known
  have beyond := List.getElem?_eq_none_iff.1 found
  have fetched : x.fetch? s = none := by
    rw [Tracked.fetch?, Program.fetch?, h.func, here, h.place]
    refine Array.getElem?_eq_none ?_
    rw [assembled.size]
    exact l.place_mono beyond
  have peak := h.peak
  refine (Fails.of_no_instruction h.running h.framed fetched).mono fun z is => ?_
  subst is
  exact ⟨rfl, h.world, rfl, Nat.max_eq_left peak⟩

/-! ### Returns -/

/-- The innermost frame, as the frames of the machine list it last. -/
theorem frames_of_reverse {m : Machine} {frame : Frame} {frames : List Frame}
    (h : m.frames.toList.reverse = frame :: frames) :
    m.frames = frames.reverse.toArray.push frame := by
  apply Array.toList_inj.1
  rw [← List.reverse_reverse m.frames.toList, h]
  simp

/-- Returning with a value, with a frame to go back to. -/
theorem dispatch_ret_of_frames {m : Machine} (framed : Framed s.limits m) {src : Operand}
    {v : Value} (load : load s src m = .ok v m) {frame : Frame} {frames : List Frame}
    (here : m.frames.toList.reverse = frame :: frames) :
    ∃ saved flag, m.base < m.registers.size → dispatch s (.unary .ret src) m = .ok () { m with
      registers := m.registers.setIfInBounds m.base v
      operands := saved
      frames := frames.reverse.toArray
      func := frame.func
      place := frame.place
      base := frame.base
      top := frame.top
      status := .ok
      flag := flag } := by
  have frames_eq := frames_of_reverse here
  have opened : m.frames ≠ #[] := by
    rw [frames_eq]
    simp
  obtain ⟨frames', frame', saved, flag, hframes, hoperands⟩ := framed.split opened
  rw [frames_eq, Array.push_eq_push] at hframes
  obtain ⟨rfl, rfl⟩ := hframes
  refine ⟨saved, flag, fun inside => ?_⟩
  rw [dispatch_ret_of_load load, ret_of_lt v inside frames_eq hoperands, Machine.returned,
    set_eq_setIfInBounds, frames_eq, Array.pop_push]

/-- The entry function returns, and the run is over. -/
theorem ends_ret (lawful : s.Lawful) (h : Match s c l j x) {src : Operand} {v : Value}
    (fetched : x.fetch? s = some (.unary .ret src))
    (load : load s src x.machine.started = .ok v x.machine.started) {frame : Frame}
    (top : frame.top = 0) (here : x.machine.frames.toList.reverse = [frame])
    (base : x.machine.base = 0) :
    Ends s storing ⟨x.machine.steps + 1, max x.machine.top 1, x.machine.depth⟩ x fun z =>
      z.machine.status = .ok ∧ z.machine.world = x.machine.world ∧
        z.machine.register? 0 = some v ∧ z.machine.steps = x.machine.steps + 1 ∧
        z.peak = x.peak := by
  have size := h.framed.size
  have top_le := h.framed.nested.bounds.2
  have peak := h.peak
  have framed : Framed s.limits x.machine.started := h.framed.congr rfl rfl rfl rfl rfl
  have op : (Instruction.unary .ret src).op = .ret := rfl
  obtain ⟨saved, flag, ok⟩ := dispatch_ret_of_frames framed load here
  have goes := Goes.of_dispatch storing lawful.isConfined h.running h.framed fetched
    (max x.machine.top 1) (fun room => ok ?_) fun short => ⟨x.machine.started, ?_⟩
  · have goes' := goes.mono fun within y ⟨is, _⟩ =>
      And.intro is (Nat.not_lt.1 fun short => within (.inl short))
    refine (goes'.stopped fun y ⟨is, _⟩ => ?_).mono fun z ⟨is, room⟩ => ?_
    · subst is
      simp [Machine.isRunning, Tracked.after]
    · subst is
      refine ⟨rfl, rfl, ?_, rfl, ?_⟩
      · show (x.machine.registers.setIfInBounds x.machine.base v)[0]? = some v
        rw [base]
        refine getElem?_setIfInBounds_self ?_
        change max x.machine.top 1 ≤ s.limits.registers at room
        omega
      · show max x.peak frame.top = x.peak
        omega
  · show x.machine.base < x.machine.registers.size
    omega
  · rw [dispatch_ret_of_load load, ret_of_le v]
    show x.machine.registers.size ≤ x.machine.base
    omega

/-- Returning to the caller. -/
theorem goes_ret (linked : Linked s c) (h : Match s c l j x) {src : Operand} {v : Value}
    (fetched : x.fetch? s = some (.unary .ret src))
    (load : load s src x.machine.started = .ok v x.machine.started) {w : Waiting}
    {waiting : List Waiting} (called : j.waiting = w :: waiting) :
    Goes s storing (x.demand x.machine.top) x fun y =>
      (∃ l', Match s c l' ⟨w.visit.set w.answer v, waiting, j.world⟩ y) ∧
        y.machine.steps = x.machine.steps + 1 ∧ y.peak = max x.peak y.machine.top ∧
        (x.machine.base, x.machine.top) :: y.machine.bounds = x.machine.bounds := by
  obtain ⟨written, rest, here, stands, pile⟩ := h.stands
  rw [called] at pile
  generalize frames_eq : x.machine.frames.toList.reverse = frames at pile
  generalize base_eq : x.machine.base = base at pile
  cases pile with
  | @call l' _ _ frame frames written' writtens _ known func place answerSlot answerPlace below
      stands' outer =>
    have size := h.framed.size
    have nested := h.framed.nested
    rw [frames_eq] at nested
    have top_le : frame.top ≤ s.limits.registers := nested.2.2.2.2.bounds.2
    have inside : x.machine.base < x.machine.registers.size := by omega
    have framed : Framed s.limits x.machine.started := h.framed.congr rfl rfl rfl rfl rfl
    obtain ⟨saved, flag, ok⟩ := dispatch_ret_of_frames framed load frames_eq
    refine (Goes.of_dispatch_free storing linked.lawful.isConfined h.running h.framed fetched
      (ok inside)).mono fun within y ⟨is, framed'⟩ => ?_
    have reversed : frames.reverse.toArray.toList.reverse = frames := by simp
    have opened : frames.reverse.toArray ≠ #[] := by
      simp [outer.frames_ne]
    subst is
    refine ⟨⟨l', known, ?_, framed', func, place, h.world, Nat.le_max_right _ _,
      steps_le_of_not_exceeds within (Nat.le_refl _), written', writtens, ?_, ?_, ?_⟩, rfl, ?_, ?_⟩
    · rw [isRunning_iff]
      exact ⟨(isRunning_iff.1 h.running).1, opened, rfl⟩
    · show x.written.tail = _
      rw [here]
      rfl
    · exact stands'.answered answerSlot answerPlace below
        (fun i lt => getElem?_setIfInBounds_of_ne (by show i ≠ x.machine.base; omega))
        (by rw [← base_eq]; exact getElem?_setIfInBounds_self inside)
    · show Pile c _ frame.base waiting frames.reverse.toArray.toList.reverse writtens
      rw [reversed]
      exact outer.congr fun i lt =>
        getElem?_setIfInBounds_of_ne (by show i ≠ x.machine.base; omega)
    · rfl
    · rw [bounds, bounds, frames_eq, ← base_eq]
      show _ :: (frame.base, frame.top) :: (frames.reverse.toArray.toList.reverse.map _) = _
      rw [reversed]
      rfl

/-- Returning from a function. -/
theorem followed_ret (linked : Linked s c) (h : Match s c l j x) {a : Address}
    (found : l.steps[j.visit.pos]? = some (.actOn .ret a)) (sound : a.Sound c.constants.size) :
    Followed s c l (.actOn .ret a) x (j.act c l (.actOn .ret a)) := by
  have fetched : x.fetch? s = some (.unary .ret (l.operand a)) :=
    h.fetch linked found (k := 0) rfl rfl rfl
  have reads := Listing.mem_reads found rfl List.mem_cons_self
  have peak := h.peak
  simp only [Journey.act]
  cases value : c.value? j.visit.temps a with
  | none =>
      exact h.barred_of_unset linked sound reads value h.running rfl fetched List.mem_cons_self
        (Instruction.operand?_unary _ _)
  | some v =>
      have load := h.load linked sound reads value (m := x.machine.started) rfl fun _ _ => rfl
      dsimp only [Journey.leave]
      cases called : j.waiting with
      | nil =>
          obtain ⟨written, rest, -, -, pile⟩ := h.stands
          rw [called] at pile
          generalize frames_eq : x.machine.frames.toList.reverse = frames at pile
          generalize base_eq : x.machine.base = base at pile
          cases pile with
          | entry top =>
              have ends := ends_ret linked.lawful h fetched load top frames_eq base_eq
              rw [h.world] at ends
              exact ends
      | cons w waiting =>
          refine (goes_ret linked h fetched load called).mono ?_
          rintro _ y ⟨arrived, steps, peak', bounds⟩
          refine ⟨arrived, steps, ?_, ?_⟩
          · show y.peak = max (max x.peak x.machine.top) y.machine.top
            omega
          · rw [← bounds]
            rfl

end RegisterCode
