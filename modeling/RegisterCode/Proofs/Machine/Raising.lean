import RegisterCode.Proofs.Machine.Counting
import RegisterCode.Proofs.Machine.Room

/-!
Runs under other limits. A run that ends without meeting a limit is the same run when the
limits are raised: each of its instructions extends itself (`dispatch_extends`), and so do
its beginning and, by induction on the run, all of it. The limit on the steps stops a run
between two instructions and leaves no trace but the status, so a run under such a limit is
the unlimited run or a part of it that begins it (`RunsTo.limited`).
-/

namespace RegisterCode

namespace Machine

variable {s : Setting} {m n z : Machine} {k : Nat}

/-! ### Raising the limits -/

section

variable {c' : Limits} (le : s.limits ≤ c')

include le

theorem reachedLimit?_raised (below : m.reachedLimit? s.limits = none) (more : Nat) :
    (m.extended more).reachedLimit? c' = none := by
  rw [Tracked.reachedLimit?_eq_none_iff] at below ⊢
  intro limit' limited'
  obtain ⟨limit, limited, higher⟩ := le.steps limit' limited'
  exact Nat.lt_of_lt_of_le (below limit limited) higher

/-- What becomes of a step becomes of it also under higher limits and with more registers,
unless it was the limits that ended the run. -/
theorem attempt_raised {more : Nat}
    (procedures : ∀ p ∈ s.procedures, ∀ count, Extends more (p.run count) (p.run count)) :
    match m.attempt s with
    | .ended _ => (m.extended more).attempt (s.under c') = .ended (m.extended more)
    | .exhausted _ _ => True
    | .done n => (m.extended more).attempt (s.under c') = .done (n.extended more)
    | .failed fault n => fault.status = .memError ∨
        (m.extended more).attempt (s.under c') = .failed fault (n.extended more) := by
  cases running : m.isRunning with
  | false =>
      rw [attempt_of_not_running running]
      exact attempt_of_not_running running
  | true =>
      cases below : m.reachedLimit? s.limits with
      | some limit =>
          rw [attempt_of_reached running below]
          exact trivial
      | none =>
          have works : ExtendsAt more (work s m) (work (s.under c') m) m.started :=
            Extends.bind (.need _ _) (fun i => dispatch_extends le procedures i) m.started
          have raised : (m.extended more).attempt (s.under c') =
              outcome (work (s.under c') m) (m.started.extended more) :=
            attempt_of_below running (reachedLimit?_raised le below more)
          rw [attempt_of_below running below, raised, outcome, outcome]
          cases ran : work s m m.started with
          | ok u n =>
              rw [works.ok ran]
          | error fault n =>
              rcases works.error ran with missing | same
              · exact .inl missing
              · rw [same]
                exact .inr rfl

theorem cleared_raised (m : Machine) :
    m.cleared c' = (m.cleared s.limits).extended (c'.registers - s.limits.registers) := by
  have registers : Array.replicate c'.registers Value.dud =
      Array.replicate s.limits.registers .dud ++
        Array.replicate (c'.registers - s.limits.registers) .dud := by
    rw [Array.replicate_append_replicate, Nat.add_sub_cancel' le.registers]
  rw [cleared, cleared, initial, registers]
  rfl

theorem begin_raised (m : Machine) (enough : (m.begin s).status ≠ .memError) :
    m.begin (s.under c') = (m.begin s).extended (c'.registers - s.limits.registers) := by
  have cleared : m.cleared (s.under c').limits =
      (m.cleared s.limits).extended (c'.registers - s.limits.registers) := cleared_raised le m
  cases entry : s.program.entry? with
  | none =>
      have entry' : (s.under c').program.entry? = none := entry
      rw [begin_of_none m entry, begin_of_none m entry', cleared]
      rfl
  | some func =>
      have entry' : (s.under c').program.entry? = some func := entry
      by_cases room : 2 ≤ s.limits.operands
      · have room' : 2 ≤ (s.under c').limits.operands := Nat.le_trans room le.operands
        rw [begin_of_le m entry room, begin_of_le m entry' room', cleared]
        rfl
      · rw [begin_of_lt m entry (Nat.not_le.1 room)] at enough
        exact absurd rfl enough

theorem RunsTo.raised {more : Nat}
    (procedures : ∀ p ∈ s.procedures, ∀ count, Extends more (p.run count) (p.run count))
    (run : RunsTo s k m z) (enough : z.status ≠ .memError) (allowed : z.status ≠ .anyError) :
    RunsTo (s.under c') k (m.extended more) (z.extended more) := by
  induction run with
  | ended stopped => exact .ended stopped
  | exhausted => exact absurd rfl allowed
  | @failed m n fault fails =>
      have raised := attempt_raised (m := m) le procedures
      rw [fails] at raised
      exact .failed (raised.resolve_left enough)
  | @next k m n z done _ ih =>
      have raised := attempt_raised (m := m) le procedures
      rw [done] at raised
      exact .next raised (ih enough allowed)

end

/-! ### Limiting the steps -/

/-- The setting with that limit on the steps, whatever the limit was. -/
abbrev limited (s : Setting) (limit : Nat) : Setting :=
  s.under { s.limits with steps := some limit }

theorem attempt_limited_of_lt (unlimited : s.limits.steps = none) {limit : Nat}
    (below : m.steps < limit) : m.attempt (limited s limit) = m.attempt s := by
  have work : work (limited s limit) m = work s m := by
    rw [work, work]
    congr 1
  cases running : m.isRunning with
  | false => rw [attempt_of_not_running running, attempt_of_not_running running]
  | true =>
      have free : m.reachedLimit? s.limits = none := by
        rw [Tracked.reachedLimit?_eq_none_iff, unlimited]
        intro limit limited
        cases limited
      have free' : m.reachedLimit? (limited s limit).limits = none := by
        rw [Tracked.reachedLimit?_eq_none_iff]
        intro limit' same
        cases same
        exact below
      rw [attempt_of_below running free, attempt_of_below running free', work]

theorem attempt_limited_self (running : m.isRunning = true) :
    m.attempt (limited s m.steps) = .exhausted m.steps m := by
  apply attempt_of_reached running
  rw [reachedLimit?]
  exact Option.filter_eq_some_iff.2 ⟨rfl, decide_eq_true (Nat.le_refl _)⟩

/-- With a limit on the steps, a run goes as far as the limit lets it. It comes to the same
end if that is near enough, and otherwise stops where it was after as many steps. -/
theorem RunsTo.limited (confined : s.IsConfined) (unlimited : s.limits.steps = none)
    (run : RunsTo s k m z) {limit left : Nat} (rest : m.steps + left = limit) :
    RunsTo (limited s limit) (min left k) m
      (if left < k then { m.follow s left with status := .anyError } else z) := by
  -- Without a step left, a run that would go on stops where it is.
  have spent {m : Machine} (running : m.isRunning = true) :
      RunsTo (Machine.limited s m.steps) 0 m { m.follow s 0 with status := .anyError } :=
    .exhausted (attempt_limited_self running)
  have below {m : Machine} {left : Nat} : m.steps < m.steps + (left + 1) :=
    Nat.lt_add_of_pos_right (Nat.succ_pos left)
  induction run generalizing left with
  | ended stopped =>
      rw [Nat.min_zero, if_neg (Nat.not_lt_zero left)]
      exact .ended stopped
  | exhausted reached =>
      have none := reachedLimit?_of_exhausted reached
      rw [reachedLimit?, unlimited] at none
      cases none
  | @failed m n fault fails =>
      subst rest
      cases left with
      | zero =>
          rw [Nat.zero_min, if_pos Nat.zero_lt_one]
          exact spent (isRunning_of_failed fails)
      | succ left =>
          rw [Nat.min_eq_right (Nat.succ_le_succ (Nat.zero_le left)),
            if_neg (Nat.not_lt.2 (Nat.succ_le_succ (Nat.zero_le left)))]
          exact .failed ((attempt_limited_of_lt unlimited below).trans fails)
  | @next k m n z done going ih =>
      subst rest
      cases left with
      | zero =>
          rw [Nat.zero_min, if_pos (Nat.succ_pos k)]
          exact spent (Tracked.isRunning_of_done done)
      | succ left =>
          have steps := attempt_steps (s := s) (m := m) confined
          rw [done] at steps
          have rest' : n.steps + left = m.steps + (left + 1) := by
            rw [steps, Nat.add_right_comm, Nat.add_assoc]
          have further := ih rest'
          have same : left < k → m.follow s (left + 1) = n.follow s left := by
            intro early
            exact follow_succ_of_done done (going.isRunning_of_pos (Nat.zero_lt_of_lt early)) left
          have ends : (if left + 1 < k + 1 then
              { m.follow s (left + 1) with status := Status.anyError } else z) =
              if left < k then { n.follow s left with status := Status.anyError } else z := by
            by_cases early : left < k
            · rw [if_pos (Nat.succ_lt_succ early), if_pos early, same early]
            · rw [if_neg (mt Nat.lt_of_succ_lt_succ early), if_neg early]
          rw [ends, Nat.add_min_add_right]
          exact .next ((attempt_limited_of_lt unlimited below).trans done) further

/-! ### What a run owes to its limits -/

/-- To execute a program with the standard procedures is to follow a run of it, to its end if the
machine stops. Take a run that comes to its end. Under limits none of which is lower it is the
same run, unless it ended for want of memory or of steps: it ends after as many steps, in the
machine that has more registers and otherwise is the same, and the registers that were added
are dud. Were its steps not limited, then with a limit on them it takes as many of them as the
limit allows. If these are all, the end is the same; if not, the machine is where it was after
as many steps, except for the status. (Executing follows a run whose steps are not limited as
long as a word of 64 bits can count them.) -/
theorem runs_under_limits (program : Program) (c : Limits) (m : Machine) :
    let s (limits : Limits) : Setting := ⟨limits, program, Procedure.standard⟩
    ((m.execute (s c)).isRunning = false →
      ∃ k, RunsTo (s c) k (m.begin (s c)) (m.execute (s c))) ∧
    ∀ k z, RunsTo (s c) k (m.begin (s c)) z →
      z.steps = k ∧ z.registers.size = c.registers ∧
        (k ≤ UInt64.size → m.execute (s c) = z) ∧
        (∀ c', c ≤ c' → z.status ≠ .memError → z.status ≠ .anyError →
          let z' := z.extended (c'.registers - c.registers)
          RunsTo (s c') k (m.begin (s c')) z' ∧
            (k ≤ UInt64.size → m.execute (s c') = z')) ∧
        (c.steps = none → ∀ n,
          let c' : Limits := { c with steps := some n }
          let z' := m.execute (s c')
          RunsTo (s c') (min n k) (m.begin (s c')) z' ∧ (k ≤ n → z' = z) ∧
            (n < k → z' = { (m.begin (s c)).follow (s c) n with status := .anyError })) := by
  intro s
  refine ⟨RunsTo.of_execute, ?_⟩
  intro k z run
  have confined (limits : Limits) : (s limits).IsConfined := standard_isConfined
  have steps := run.steps (confined c)
  rw [begin_steps, Nat.zero_add] at steps
  have framed := run.framed (confined c) (begin_framed (s c) m)
  refine ⟨steps, framed.size, fun word => run.execute (confined c) fun _ => word, ?_, ?_⟩
  · intro c' le enough allowed z'
    have started : (m.begin (s c)).status ≠ .memError := by
      intro missing
      have stopped : (m.begin (s c)).isRunning = false := by
        rw [isRunning, missing]
        exact Bool.and_false _
      rw [(run.eq_of_not_running stopped).2] at enough
      exact enough missing
    have raised : RunsTo (s c') k ((m.begin (s c)).extended (c'.registers - c.registers)) z' :=
      RunsTo.raised le (Procedure.standard_extends _) run enough allowed
    have begins : m.begin (s c') = (m.begin (s c)).extended (c'.registers - c.registers) :=
      begin_raised le m started
    rw [← begins] at raised
    exact ⟨raised, fun word => raised.execute (confined c') fun _ => word⟩
  · intro unlimited n c' z'
    have start : (m.begin (s c)).steps + n = n := by rw [begin_steps, Nat.zero_add]
    have limited : RunsTo (s c') (min n k) (m.begin (s c'))
        (if n < k then { (m.begin (s c)).follow (s c) n with status := .anyError } else z) :=
      run.limited (confined c) unlimited start
    have ends := limited.execute (confined c') fun none => by cases none
    refine ⟨?_, ?_, ?_⟩
    · rw [← ends] at limited
      exact limited
    · intro late
      rw [if_neg (Nat.not_lt.2 late)] at ends
      exact ends
    · intro early
      rw [if_pos early] at ends
      exact ends

/-- A program that answers seven. -/
def answering : Program :=
  ⟨#[#[.binary .mov (.register 0) (.immediate 7), .unary .ret (.register 0)]], #[], some 0⟩

theorem runs_of_answering :
    let s (limits : Limits) : Setting := ⟨limits, answering, Procedure.standard⟩
    let c : Limits := ⟨4, 2, 0, none⟩
    let m := initial c []
    ∃ z, RunsTo (s c) 2 (m.begin (s c)) z ∧ z.status = .ok ∧ m.execute (s c) = z ∧
      m.execute (s ⟨9, 6, 5, none⟩) = z.extended 5 ∧
      m.execute (s { c with steps := some 2 }) = z ∧
      (m.execute (s { c with steps := some 1 })).status = .anyError := by
  intro s c m
  have le : c ≤ ⟨9, 6, 5, none⟩ := by
    refine ⟨by decide, by decide, by decide, ?_⟩
    intro limit limited
    cases limited
  have stopped : (m.execute (s c)).isRunning = false := by decide +kernel
  have fine : (m.execute (s c)).status = .ok := by decide +kernel
  have count : (m.execute (s c)).steps = 2 := by decide +kernel
  obtain ⟨ends, under⟩ := runs_under_limits answering c m
  obtain ⟨k, run⟩ := ends stopped
  obtain ⟨steps, -, once, raised, limited⟩ := under k _ run
  obtain rfl : k = 2 := steps.symm.trans count
  have word : 2 ≤ UInt64.size := by decide
  have enough : (m.execute (s c)).status ≠ .memError := by
    rw [fine]
    decide
  have allowed : (m.execute (s c)).status ≠ .anyError := by
    rw [fine]
    decide
  refine ⟨_, run, fine, once word, (raised _ le enough allowed).2 word, ?_, ?_⟩
  · exact (limited rfl 2).2.1 (Nat.le_refl 2)
  · rw [(limited rfl 1).2.2 (by decide)]

end Machine

end RegisterCode
