import RegisterCode.Proofs.Code.Control

/-!
A machine follows a journey through calls. The copies in front of a call fill
consecutive slots right below the top, so the frame of the callee begins with
the arguments, and where it begins the caller finds the answer.
-/

namespace RegisterCode

open Machine Tracked

/-! ### Windows -/

theorem getElem?_filterMap_of_isSome {α β : Type} {f : α → Option β} {xs : List α}
    (h : ∀ x ∈ xs, (f x).isSome) (i : Nat) : (xs.filterMap f)[i]? = xs[i]?.bind f := by
  induction xs generalizing i with
  | nil => rfl
  | cons x xs ih =>
      obtain ⟨y, here⟩ := Option.isSome_iff_exists.1 (h x List.mem_cons_self)
      rw [List.filterMap_cons_some here]
      cases i with
      | zero => exact here.symm
      | succ i => exact ih (fun x mem => h x (List.mem_cons_of_mem _ mem)) i

namespace Listing

variable {l : Listing} {k n : Nat}

namespace Window

theorem writes (h : l.Window k n) {i : Nat} (lt : i < n) :
    ∃ t, l.writes? (k - n + i) = some t ∧ ¬ IsParam l.params t ∧
      ∀ q, l.writes? q = some t → q = k - n + i := by
  have le := h.le
  obtain ⟨t, a, found, param, only⟩ := h.copies (k - n + i) (by omega) (by omega)
  exact ⟨t, writes?_of_dest found rfl, param, only⟩

/-- Argument `i` is copied by the step `n - i` in front of the call. -/
theorem getElem?_window (h : l.Window k n) (i : Nat) (lt : i < n) :
    (l.window k n)[i]? = l.writes? (k - n + i) := by
  have le := h.le
  have written : ∀ step ∈ (l.steps.take k).drop (k - n),
      (step.dest?.map Address.id).isSome := by
    intro step mem
    obtain ⟨q, inside⟩ := List.mem_iff_getElem?.1 mem
    rw [List.getElem?_drop, List.getElem?_take] at inside
    split at inside
    · obtain ⟨t, a, found, -, -⟩ := h.copies (k - n + q) (by omega) (by omega)
      rw [found] at inside
      cases inside
      rfl
    · cases inside
  rw [window, getElem?_filterMap_of_isSome written, List.getElem?_drop, List.getElem?_take,
    if_pos (by omega)]
  rfl

theorem length_window (h : l.Window k n) : (l.window k n).length = n := by
  have le := h.le
  refine Nat.le_antisymm ?_ ?_
  · refine Nat.le_trans (List.length_filterMap_le _ _) ?_
    simp only [List.length_drop, List.length_take]
    omega
  · refine Nat.le_of_not_lt fun short => ?_
    obtain ⟨t, written, -⟩ := h.writes short
    have none := List.getElem?_eq_none_iff.2 (Nat.le_refl (l.window k n).length)
    rw [h.getElem?_window _ short, written] at none
    cases none

theorem room_eq (h : l.Window k n) {i : Nat} (le : i ≤ n) :
    l.room (k - n + i) = l.room (k - n) + i := by
  induction i with
  | zero => rfl
  | succ i ih =>
      obtain ⟨t, written, param, only⟩ := h.writes (Nat.lt_of_succ_le le)
      obtain ⟨step, found, dest⟩ := writes?_eq_some written
      have fresh : t ∉ l.names (k - n + i) := by
        rw [mem_names_iff]
        rintro ⟨-, q, lt, written'⟩
        have := only q written'
        omega
      rw [← Nat.add_assoc, room_succ_of_fresh found dest param fresh, ih (Nat.le_of_succ_le le)]
      rfl

/-- The window fills the slots right below those that are free at the call. -/
theorem room_call (h : l.Window k n) : l.room k = l.room (k - n) + n := by
  have le := h.le
  have room := h.room_eq (Nat.le_refl n)
  rwa [Nat.sub_add_cancel le] at room

theorem slot_eq (h : l.Window k n) {i : Nat} (lt : i < n) {t : Int16}
    (written : l.writes? (k - n + i) = some t) : l.slot t = l.room (k - n) + i := by
  obtain ⟨t', written', param, only⟩ := h.writes lt
  rw [written] at written'
  cases written'
  obtain ⟨step, found, dest⟩ := writes?_eq_some written
  have fresh : t ∉ l.names (k - n + i) := by
    rw [mem_names_iff]
    rintro ⟨-, q, lt', written'⟩
    have := only q written'
    omega
  rw [slot_of_fresh found dest param fresh, h.room_eq (Nat.le_of_lt lt)]

/-- The answer comes back in the first of the window's temporaries. -/
theorem head (h : l.Window k n) :
    ∃ t, (l.window k n).head? = some t ∧ l.writes? (k - n) = some t ∧
      l.slot t = l.room (k - n) := by
  obtain ⟨t, written, -, -⟩ := h.writes h.positive
  refine ⟨t, ?_, written, ?_⟩
  · rw [List.head?_eq_getElem?, h.getElem?_window 0 h.positive]
    exact written
  · exact h.slot_eq h.positive written

end Window

end Listing

theorem mapM_of_isSome {α β : Type} {f : α → Option β} {xs : List α}
    (h : ∀ x ∈ xs, (f x).isSome) :
    ∃ ys : List β, xs.mapM f = some ys ∧ ys.length = xs.length ∧
      ∀ i : Nat, ys[i]? = xs[i]?.bind f := by
  induction xs with
  | nil => exact ⟨[], rfl, rfl, fun _ => rfl⟩
  | cons x xs ih =>
      obtain ⟨y, here⟩ := Option.isSome_iff_exists.1 (h x List.mem_cons_self)
      obtain ⟨ys, rest, length, get⟩ := ih fun x mem => h x (List.mem_cons_of_mem _ mem)
      refine ⟨y :: ys, ?_, congrArg Nat.succ length, fun i => ?_⟩
      · rw [List.mapM_cons, here, rest]
        rfl
      · cases i with
        | zero => exact here.symm
        | succ i => exact get i

namespace Stands

variable {l : Listing} {v : Visit} {base top n : Nat} {registers : Array Value}
  {written : List Nat} {pool functions procedures : Nat}

/-- What the copies of a window wrote is there when the call is reached. -/
theorem recent_window (h : Stands l v none base top top registers written)
    {step : Step} (found : l.steps[v.pos]? = some step) (call : step ≠ .act .nop)
    (window : l.Window v.pos n) {i : Nat} (lt : i < n) {t : Int16}
    (wrote : l.writes? (v.pos - n + i) = some t) :
    (v.temps t).isSome ∧ base + l.slot t < top := by
  have le := window.le
  refine h.recent _ t (by omega) (fun q above below => ?_) wrote
  by_cases last : q = v.pos
  · rw [last, found]
    simpa using call
  · obtain ⟨t', a, copied, -⟩ := window.copies q (by omega) (by omega)
    rw [copied]
    simp [Step.copy]

/-- The window ends where the frame does. -/
theorem top_eq (h : Stands l v none base top top registers written) {step : Step}
    (found : l.steps[v.pos]? = some step) (call : step ≠ .act .nop) (window : l.Window v.pos n) :
    top = base + l.room (v.pos - n) + n := by
  have positive := window.positive
  have top_le := h.top_le
  have room := window.room_call
  obtain ⟨t, wrote, -⟩ := window.writes (i := n - 1) (by omega)
  have slot := window.slot_eq (by omega) wrote
  have below := (h.recent_window found call window (by omega) wrote).2
  omega

/-- The values of the window, and where they stand. -/
theorem passed (h : Stands l v none base top top registers written) {step : Step}
    (found : l.steps[v.pos]? = some step) (call : step.window? = some n)
    (window : l.Window v.pos n) :
    ∃ args, (l.window v.pos n).mapM v.temps = some args ∧ args.length = n ∧
      ∀ i (lt : i < args.length), registers[top - n + i]? = some args[i] := by
  have notNop : step ≠ .act .nop := by
    rintro rfl
    cases call
  have set : ∀ t ∈ l.window v.pos n, (v.temps t).isSome := by
    intro t mem
    obtain ⟨i, here⟩ := List.mem_iff_getElem?.1 mem
    have lt := (List.getElem?_eq_some_iff.1 here).1
    rw [window.length_window] at lt
    rw [window.getElem?_window i lt] at here
    exact (h.recent_window found notNop window lt here).1
  obtain ⟨args, all, length, get⟩ := mapM_of_isSome set
  rw [window.length_window] at length
  refine ⟨args, all, length, fun i lt => ?_⟩
  have lt' : i < n := length ▸ lt
  obtain ⟨t, wrote, -⟩ := window.writes lt'
  have here := get i
  rw [window.getElem?_window i lt', wrote, List.getElem?_eq_getElem lt] at here
  have reads : t ∈ l.reads v.pos := by
    simp only [Listing.reads, found, call]
    exact List.mem_iff_getElem?.2 ⟨i, (window.getElem?_window i lt').trans wrote⟩
  obtain ⟨-, -, register⟩ := h.set t args[i] ⟨_, Nat.le_refl _, reads⟩ (by simp) here.symm
  have top_eq := h.top_eq found notNop window
  rw [window.slot_eq lt' wrote] at register
  rw [← register]
  congr 1
  omega

/-- A function is entered with its arguments at the base of its frame. -/
theorem entered {func : Nat} {args : List Value} (fits : args.length ≤ max 1 l.params)
    (length : base + args.length = top)
    (values : ∀ i (lt : i < args.length), registers[base + i]? = some args[i]) :
    Stands l ⟨func, 0, l.entered args⟩ none base top top registers (List.range args.length) := by
  have room : l.room 0 = l.params := rfl
  refine ⟨fun t x _ _ value => ?_, fun t _ _ value => ?_, fun p t lt => absurd lt (Nat.not_lt_zero p),
    ?_⟩
  · obtain ⟨lt, here⟩ := List.getElem?_eq_some_iff.1 value
    refine ⟨?_, by omega, ?_⟩
    · show l.slot t < max 1 (l.room 0)
      omega
    · rw [values _ lt, here]
  · have beyond := List.getElem?_eq_none_iff.1 value
    rw [List.mem_range]
    omega
  · show top ≤ base + max 1 (l.room 0)
    omega

/-- While a callee works, its caller's temporaries stand below the window. -/
theorem aside (orderly : l.Orderly pool functions procedures)
    (h : Stands l v none base top top registers written) (silent : l.writes? v.pos = none)
    (window : l.Window v.pos n) {answer : Int16} (first : l.writes? (v.pos - n) = some answer) :
    Stands l v.move (some answer) base (base + l.room (v.pos - n)) top registers written := by
  have moved := h.move silent
  have room := window.room_call
  have positive := window.positive
  have le := window.le
  refine ⟨fun t x awaits notSkip value => ?_, fun t awaits _ => moved.unset t awaits nofun,
    moved.recent, moved.top_le⟩
  obtain ⟨slot_lt, below, here⟩ := moved.set t x awaits nofun value
  obtain ⟨slot_lt', -, -⟩ := h.set t x (awaits.mono (Nat.le_succ _)) nofun value
  refine ⟨slot_lt, ?_, here⟩
  by_contra beyond
  have inside : l.slot t - l.room (v.pos - n) < n := by omega
  obtain ⟨t', wrote, -⟩ := window.writes inside
  have slot := window.slot_eq inside wrote
  have same : t = t' := Listing.slot_inj (orderly.known_of_awaits awaits) (by omega)
  subst same
  by_cases zero : l.slot t - l.room (v.pos - n) = 0
  · rw [zero, Nat.add_zero, first] at wrote
    exact notSkip wrote
  · exact window.rest _ t (by omega) (by omega) wrote awaits

end Stands

/-! ### Calls of functions -/

variable {s : Setting} {c : Chart} {l : Listing} {j : Journey} {x y : Tracked}

/-- What stops a call whose function and arguments are there. -/
theorem call_of_full {func argc : Nat} {m : Machine} (func_lt : func < s.program.chunks.size)
    (argc_le : argc ≤ m.top - m.base)
    (full : s.limits.depth ≤ m.frames.size ∨ s.limits.operands < m.operands.size + 2) :
    ∃ fault, Machine.call s func argc m = .error fault m ∧ fault.isLimit = true := by
  by_cases depth_lt : m.frames.size < s.limits.depth
  · have full' := full.resolve_left (Nat.not_le.2 depth_lt)
    exact ⟨.operandStackLimit, by simp [Machine.call, require, bind_apply, func_lt, depth_lt,
      argc_le, saveSpecials_of_lt full'], rfl⟩
  · exact ⟨.callDepthLimit, by simp [Machine.call, require, bind_apply, func_lt, depth_lt], rfl⟩

/-- Opening a frame. -/
theorem goes_call (confined : s.IsConfined) (running : x.machine.isRunning = true)
    (framed : Framed s.limits x.machine) {func argc : Int16} (named : 0 ≤ func) (some : 0 ≤ argc)
    (fetched : x.fetch? s = .some (.binary .call (.immediate func) (.immediate argc)))
    (func_lt : func.toNatClampNeg < s.program.chunks.size)
    (argc_le : argc.toNatClampNeg ≤ x.machine.top - x.machine.base) :
    Goes s storing ⟨x.machine.steps + 1, x.machine.top, x.machine.depth + 1⟩ x fun y =>
      y = ⟨x.machine.started.called func.toNatClampNeg argc.toNatClampNeg,
        List.range argc.toNatClampNeg :: x.written, max x.peak x.machine.top⟩ ∧
        Framed s.limits y.machine := by
  have operands := size_operands framed
  have opened : 0 < x.machine.depth :=
    Array.size_pos_iff.2 (isRunning_iff.1 running).2.1
  have dispatched := dispatch_call_immediate (s := s) named some x.machine.started
  by_cases full : s.limits.depth ≤ x.machine.frames.size ∨
      s.limits.operands < x.machine.operands.size + 2
  · refine .inl ⟨?_, ?_⟩
    · rw [Machine.depth] at opened operands
      simp only [Demand.Exceeds, Machine.depth]
      omega
    · cases below : x.machine.reachedLimit? s.limits with
      | some limit => exact .of_exhausted running below
      | none =>
          obtain ⟨fault, error, limit⟩ :=
            call_of_full (m := x.machine.started) func_lt argc_le full
          have attempt := attempt_of_fetch running below fetched
          rw [dispatched, error] at attempt
          exact .of_limit running attempt limit
  · have callable : Callable s func.toNatClampNeg argc.toNatClampNeg x.machine.started :=
      ⟨func_lt, by simp only [Machine.started]; omega, argc_le,
        by simp only [Machine.started]; omega⟩
    rw [call_of_callable callable] at dispatched
    have goes := Goes.of_dispatch_free storing confined running framed fetched dispatched
    have deeper : (x.demand x.machine.top).Le
        ⟨x.machine.steps + 1, x.machine.top, x.machine.depth + 1⟩ :=
      ⟨Nat.le_refl _, Nat.le_refl _, Nat.le_succ _⟩
    refine (goes.enlarge deeper ?_).mono ?_
    · rintro (short | short | short | short)
      · exact .inl short
      · exact .inr (.inl short)
      · rw [Machine.depth] at short
        dsimp only at short
        omega
      · rw [Machine.depth] at operands
        simp only [Machine.depth] at short
        omega
    · rintro _ y ⟨is, framed'⟩
      refine ⟨?_, framed'⟩
      have op : (Instruction.binary .call (.immediate func) (.immediate argc)).op = .call := rfl
      have after : writtenAfter s storing x.machine
          (.binary .call (.immediate func) (.immediate argc)) x.written =
          List.range argc.toNatClampNeg :: x.written := by
        simp only [writtenAfter, op, callee_immediate named some]
      rw [is, Tracked.after, after]
      rfl

/-- Calling a function. -/
theorem followed_call (linked : Linked s c) (h : Match s c l j x) {func count : Int16}
    (found : l.steps[j.visit.pos]? =
      some (.actOnTwo .call (.immediate func) (.immediate count)))
    (named : 0 ≤ func) (known : func.toNatClampNeg < c.listings.length) (positive : 0 < count) :
    Followed s c l (.actOnTwo .call (.immediate func) (.immediate count)) x
      (j.act c l (.actOnTwo .call (.immediate func) (.immediate count))) := by
  have orderly := h.orderly linked
  have fetched : x.fetch? s = some (.binary .call (.immediate func) (.immediate count)) :=
    h.fetch linked found (k := 0) rfl rfl rfl
  have window := orderly.window _ _ _ found rfl
  obtain ⟨frame, rest, written, stands, pile⟩ := h.stands
  obtain ⟨args, passed, length, values⟩ := stands.passed found rfl window
  obtain ⟨answer, head, first, slot⟩ := window.head
  have top := stands.top_eq found (by simp) window
  have natural : 0 ≤ count := Int16.le_of_lt positive
  obtain ⟨callee, here⟩ : ∃ callee, c.listings[func.toNatClampNeg]? = some callee :=
    ⟨_, List.getElem?_eq_getElem known⟩
  simp only [Journey.act, Journey.call, Journey.passed, Address.immediate, passed, head, here]
  by_cases fits : args.length ≤ max 1 callee.params
  · rw [if_pos fits]
    have room := window.room_call
    have room_pos := window.positive
    have base_le := h.framed.seated.base_le
    have func_lt : func.toNatClampNeg < s.program.chunks.size := linked.size ▸ known
    refine (goes_call linked.lawful.isConfined h.running h.framed named natural fetched func_lt
      (by omega)).mono ?_
    rintro within y ⟨is, framed⟩
    have peak := h.peak
    subst is
    have base : x.machine.top - count.toNatClampNeg =
        x.machine.base + l.room (j.visit.pos - count.toNatClampNeg) := by omega
    have silent : l.writes? j.visit.pos = none := by simp [Listing.writes?, found, Step.dest?]
    have frames : ((x.machine.started.called func.toNatClampNeg
        count.toNatClampNeg).frames.toList.reverse) =
        ⟨x.machine.func, x.machine.place + 1, x.machine.base, x.machine.top⟩ ::
          x.machine.frames.toList.reverse := by
      simp [Machine.called, Machine.started]
    have place : x.machine.place + 1 = l.place j.visit.move.pos := by
      rw [h.place]
      exact (Listing.place_succ found).symm
    refine ⟨⟨callee, here, ?_, framed, rfl, rfl, h.world, ?_,
      steps_le_of_not_exceeds within (Nat.le_refl _), List.range args.length, x.written, ?_,
      .entered fits ?_ ?_, ?_⟩, rfl, ?_, ?_⟩
    · obtain ⟨going, -, status⟩ := isRunning_iff.1 h.running
      exact isRunning_iff.2 ⟨going, by simp [Machine.called], status⟩
    · exact Nat.le_max_right _ _
    · rw [length]
    · show x.machine.top - _ + args.length = x.machine.top
      omega
    · exact values
    · show Pile c x.machine.registers (x.machine.top - count.toNatClampNeg) _
        (x.machine.started.called _ _).frames.toList.reverse _
      rw [frames, written, base]
      refine .call h.known h.func place ?_ ?_ ?_ (stands.aside orderly silent window first) pile
      · have room' : l.room j.visit.pos ≤ l.room (j.visit.pos + 1) :=
          l.room_mono (Nat.le_succ j.visit.pos)
        show l.slot answer < max 1 (l.room (j.visit.pos + 1))
        omega
      · rw [slot]
      · show x.machine.base + _ < x.machine.top
        omega
    · show max x.peak x.machine.top = max (max x.peak x.machine.top) x.machine.top
      omega
    · show (_, _) :: ((x.machine.started.called _ _).frames.toList.reverse.map _) = _
      rw [frames]
      rfl
  · rw [if_neg fits]
    refine .of_forbidden h.running fetched fun clean => fits ?_
    have le := clean.call rfl _ _ _ (callee_immediate named natural x.machine)
    rw [Chart.arity, here] at le
    rw [length]
    exact le

/-! ### Calls of procedures -/

/-- Calling a procedure of the host. -/
theorem followed_nativeCall (linked : Linked s c) (h : Match s c l j x) {id count : Int16}
    (found : l.steps[j.visit.pos]? =
      some (.actOnTwo .nativeCall (.immediate id) (.immediate count)))
    (named : 0 ≤ id) (known : id.toNatClampNeg < c.procedures.size) (positive : 0 < count) :
    Followed s c l (.actOnTwo .nativeCall (.immediate id) (.immediate count)) x
      (j.act c l (.actOnTwo .nativeCall (.immediate id) (.immediate count))) := by
  have orderly := h.orderly linked
  have fetched : x.fetch? s = some (.binary .nativeCall (.immediate id) (.immediate count)) :=
    h.fetch linked found (k := 0) rfl rfl rfl
  have window := orderly.window _ _ _ found rfl
  obtain ⟨frame, rest, written, stands, pile⟩ := h.stands
  obtain ⟨args, passed, length, values⟩ := stands.passed found rfl window
  obtain ⟨answer, head, first, slot⟩ := window.head
  have top := stands.top_eq found (by simp) window
  have natural : 0 ≤ count := Int16.le_of_lt positive
  obtain ⟨procedure, here⟩ : ∃ procedure, c.procedures[id.toNatClampNeg]? = some procedure :=
    ⟨_, Array.getElem?_eq_getElem known⟩
  have there : s.procedures[id.toNatClampNeg]? = some procedure := linked.procedures ▸ here
  have lawful := linked.lawful procedure (Array.mem_of_getElem? there)
  have size := h.framed.size
  have top_le := h.framed.nested.bounds.2
  have room := window.positive
  have small : args.length < UInt16.size := by
    rw [length]
    exact Nat.lt_trans count.toNatClampNeg_lt (by decide)
  have nonempty : args ≠ [] := by
    rintro rfl
    rw [List.length_nil] at length
    omega
  have runs := lawful.run (m := x.machine.started) nonempty small
    (by show x.machine.base + _ ≤ x.machine.top; omega)
    (by show x.machine.top ≤ x.machine.registers.size; omega)
    (by rw [← length] at values; exact values)
  have world : x.machine.started.world = j.world := h.world
  have dispatched := dispatch_nativeCall named natural there x.machine.started
  rw [← length] at dispatched
  rw [world] at runs
  simp only [Journey.act, Journey.callProcedure, Journey.passed, Address.immediate, passed, head,
    here]
  cases performed : procedure.perform args j.world with
  | mk result w =>
      rw [performed] at runs
      cases result with
      | error fault =>
          obtain ⟨own, m, fails, world', confined⟩ := runs
          rw [bind_of_error fails] at dispatched
          have top' : m.top = x.machine.top := by rw [confined.same]; rfl
          have steps' : m.steps = x.machine.steps + 1 := by rw [confined.same]; rfl
          refine ⟨own, (Fails.of_dispatch h.running h.framed fetched own.2 dispatched).mono
            fun z is => ?_⟩
          subst is
          refine ⟨rfl, world', steps', ?_⟩
          show max x.peak m.top = max x.peak x.machine.top
          rw [top']
      | ok v =>
          obtain ⟨m, runs, world', answered, confined⟩ := runs
          rw [bind_of_ok runs, advance_apply] at dispatched
          have op : (Instruction.binary .nativeCall (.immediate id) (.immediate count)).op =
            .nativeCall := rfl
          have same := confined.same
          have count' : (UInt16.ofNat args.length).toNat = count.toNatClampNeg :=
            (UInt16.toNat_ofNat_of_lt small).trans length
          rw [length] at answered
          refine (Goes.of_dispatch_free storing linked.lawful.isConfined h.running h.framed fetched
            dispatched).mono ?_
          rintro within y ⟨is, framed⟩
          have machine : y.machine = { x.machine with
              registers := m.registers
              store := m.store
              input := m.input
              output := m.output
              place := x.machine.place + 1
              steps := x.machine.steps + 1 } := by
            rw [is]
            show m.advanced = _
            rw [same]
            rfl
          have written' : y.written = x.written := by
            rw [is]
            simp only [Tracked.after]
            exact writtenAfter_of_unstored s op (by decide) (by decide) rfl _
          have peak : y.peak = x.peak := by
            have le := h.peak
            rw [is]
            show max x.peak m.top = x.peak
            rw [same]
            exact Nat.max_eq_left le
          have kept : ∀ i < x.machine.base + l.room (j.visit.pos - count.toNatClampNeg),
              m.registers[i]? = x.machine.registers[i]? := by
            intro i lt
            refine confined.other i fun found => ?_
            have last := found.2
            rw [count'] at last
            change i + count.toNatClampNeg = x.machine.top at last
            omega
          have silent : l.writes? j.visit.pos = none := by simp [Listing.writes?, found, Step.dest?]
          have place : x.machine.place + 1 = l.place (j.visit.pos + 1) := by
            rw [h.place]
            exact (Listing.place_succ found).symm
          have le := h.peak
          refine ⟨⟨l, h.stay ?_ framed rfl rfl ?_ ?_ ?_ ?_ ?_ ?_ ?_ (fun i lt => ?_)
            fun frame rest written stands => ⟨frame, written'.trans written, ?_⟩⟩, ?_, ?_, ?_⟩
          · rw [machine]
            exact h.running
          · rw [machine]
          · rw [machine]
            exact place
          · rw [machine]
            exact world'
          · rw [machine, peak]
            exact le
          · rw [machine]
            exact steps_le_of_not_exceeds within (Nat.le_refl _)
          · rw [machine]
          · rw [machine]
          · rw [machine]
            exact kept i (by omega)
          · rw [machine]
            refine (stands.aside orderly silent window first).answered ?_ (by rw [slot]) ?_ kept ?_
            · have room' := window.room_call
              have room'' : l.room j.visit.pos ≤ l.room (j.visit.pos + 1) :=
                l.room_mono (Nat.le_succ j.visit.pos)
              show l.slot answer < max 1 (l.room (j.visit.pos + 1))
              omega
            · omega
            · have base : x.machine.started.top - count.toNatClampNeg =
                  x.machine.base + l.room (j.visit.pos - count.toNatClampNeg) := by
                show x.machine.top - _ = _
                omega
              rw [← base]
              exact answered
          · rw [machine]
            rfl
          · rw [machine, peak]
            show x.peak = max (max x.peak x.machine.top) x.machine.top
            omega
          · rw [machine]
            rfl

end RegisterCode
