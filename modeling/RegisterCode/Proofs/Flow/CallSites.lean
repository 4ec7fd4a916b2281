import RegisterCode.Proofs.Flow.Callees
import RegisterCode.Proofs.Flow.Condensing

/-!
Where calls stand: each call is the last step of a task, and the copies of its operands are the
steps in front of it. Condensing leaves these steps as they are, and what an orderly listing says
of the temporaries that are passed holds before and after.
-/

namespace RegisterCode

/-- The address is an operand or the destination of the step. -/
def Step.Mentions (step : Step) (a : Address) : Prop := step.dest? = some a ∨ a ∈ step.args

/-- At a place of the steps stands a call, behind the copies of its operands to temporaries from
a number on. -/
structure CallAt (steps : List Step) (k temps : Nat) (target : Callee) (as : List Address) :
    Prop where
  nonempty : as ≠ []
  small : as.length < numberRange
  limit : temps + as.length ≤ numberLimit
  le : as.length ≤ k
  copies : ∀ (i : Nat) (a : Address), as[i]? = some a →
    steps[k - as.length + i]? = some (.copy (.temp (Int16.ofNat (temps + i))) a)
  call : steps[k]? = some (Draft.callStep target as.length)

namespace CallAt

variable {steps steps' : List Step} {k temps i : Nat} {target : Callee} {as : List Address}

/-- Steps that are added behind do not matter. -/
theorem mono (h : CallAt steps k temps target as) (le : steps <+: steps') :
    CallAt steps' k temps target as := by
  have kept {q : Nat} {step : Step} (found : steps[q]? = some step) : steps'[q]? = some step := by
    rw [getElem?_of_isPrefix le (List.getElem?_eq_some_iff.1 found).1]
    exact found
  exact { h with
    copies := fun i a at_ => kept (h.copies i a at_)
    call := kept h.call }

end CallAt

namespace Draft

variable {c : Context} {d d' : Draft} {a : Address} {count : Nat}

/-- A whole call, as it is compiled. -/
theorem callAt_called (target : Callee) {as : List Address} (opened : 0 < d.graph.blocks.size)
    (some : as ≠ []) (small : as.length < numberRange) (limit : d.temps + as.length ≤ numberLimit) :
    CallAt (d.called target as).graph.steps (d.graph.steps.length + as.length) d.temps target
      as := by
  have steps := steps_called target as opened
  refine ⟨some, small, limit, Nat.le_add_left _ _, fun i a at_ => ?_, ?_⟩
  · have lt := (List.getElem?_eq_some_iff.1 at_).1
    rw [Nat.add_sub_cancel, steps, List.getElem?_append_right (Nat.le_add_right _ _),
      Nat.add_sub_cancel_left, List.getElem?_append_left (by rwa [length_copies]),
      getElem?_copies, at_]
    rfl
  · rw [steps, List.getElem?_append_right (Nat.le_add_right _ _), Nat.add_sub_cancel_left,
      List.getElem?_append_right (by rw [length_copies]), length_copies, Nat.sub_self]
    rfl

/-- A call is the last step of a task, behind the copies of its operands. -/
structure CallTask (steps : List Step) (start k : Nat) (t : Task) (temps : Nat) (target : Callee)
    (as : List Address) : Prop where
  isCall : t.expr.call?.isSome = true
  address : t.address? = some (.temp (Int16.ofNat temps))
  stop : t.stop = k + 1
  callAt : CallAt steps k temps target as
  start_le : start ≤ k - as.length

/-- The only call that a stage adds is the last step of its task. -/
theorem Stage.callTask {t : Task} (stage : Stage count t a d d') (sane : d.Sane count) {k : Nat}
    {step : Step} (late : d.graph.steps.length ≤ k) (found : d'.graph.steps[k]? = some step)
    (isCall : step.isCall = true) :
    ∃ temps target as, CallTask d'.graph.steps d.graph.steps.length k t temps target as := by
  have address := Task.address?_of_ok stage.run
  have stop := Task.stop_of_ok stage.run
  -- A step that is added by itself is found at the first new place.
  have single {new : Step} (pushed : d'.graph.steps = d.graph.steps ++ [new]) : step = new := by
    rw [pushed, List.getElem?_append_right late] at found
    exact List.mem_singleton.1 (List.mem_of_getElem? found)
  obtain ⟨place, scope, e, d0⟩ := t
  cases stage.finish with
  | literal run =>
      rw [graph_of_ofLiteral run, List.getElem?_eq_none late] at found
      cases found
  | @call callee args span target _ _ as named length small limit =>
      have some := passedOperands_ne_nil as
      generalize passedOperands as = passed at found address stop small limit some ⊢
      have callAt := callAt_called target sane.opened some small limit
      have steps := steps_called target passed sane.opened
      have last : k = d.graph.steps.length + passed.length := by
        rw [steps, List.getElem?_append_right late, List.getElem?_append] at found
        split at found
        · -- The copies are no calls.
          have mem := List.mem_filter.2 ⟨List.mem_of_getElem? found, isCall⟩
          rw [filter_isCall_copies] at mem
          cases mem
        · have inside := (List.getElem?_eq_some_iff.1 found).1
          rw [List.length_singleton] at inside
          rename_i copied
          rw [length_copies] at copied inside
          omega
      subst last
      exact ⟨d.temps, target, passed, rfl, address,
        stop.trans (length_called target passed sane.opened), callAt, by omega⟩
  | unary limit =>
      rw [single (Graph.steps_pushNewest sane.opened)] at isCall
      cases isCall
  | binary limit =>
      rw [single (Graph.steps_pushNewest sane.opened)] at isCall
      cases isCall
  | assign targeted =>
      rw [single (Graph.steps_pushNewest sane.opened)] at isCall
      cases isCall

theorem CallTask.mono {steps steps' : List Step} {start start' k temps : Nat} {t : Task}
    {target : Callee} {as : List Address} (h : CallTask steps start k t temps target as)
    (le : steps <+: steps') (early : start' ≤ start) :
    CallTask steps' start' k t temps target as :=
  { h with
    callAt := h.callAt.mono le
    start_le := Nat.le_trans early h.start_le }

variable {scope scope' : List (String × Address)} {tasks : List Task}

/-- The calls of a course are the last steps of tasks. -/
theorem Course.callTask (h : Course count c scope d tasks scope' d') (sane : d.Sane count) {k : Nat}
    {step : Step} (late : d.graph.steps.length ≤ k) (found : d'.graph.steps[k]? = some step)
    (isCall : step.isCall = true) :
    ∃ t ∈ tasks, ∃ temps target as,
      CallTask d'.graph.steps d.graph.steps.length k t temps target as := by
  rcases h.origin sane late found with silent | ⟨t, mem, d1, d2, adds⟩
  · rw [silent.1] at isCall
    cases isCall
  · obtain ⟨a, stage⟩ := adds.stage
    obtain ⟨temps, target, as, call⟩ := stage.callTask adds.sane adds.late adds.found isCall
    exact ⟨t, mem, temps, target, as,
      call.mono adds.after.steps adds.before.steps.length_le⟩

/-- The calls of a function are the last steps of its tasks. -/
theorem Written.callTask {registry : Registry} {f : Declaration} {g : Graph} {d1 d2 : Draft}
    (h : Written registry count f g tasks d d' d1 d2) {k : Nat} {step : Step}
    (found : g.steps[k]? = some step) (isCall : step.isCall = true) :
    ∃ t ∈ tasks, ∃ temps target as, CallTask g.steps 0 k t temps target as := by
  obtain ⟨scope, course⟩ := h.course
  rw [h.steps] at found ⊢
  have none : d1.graph.steps.length = 0 := by rw [h.entered.steps, List.length_nil]
  have call := course.callTask h.sane (by omega) found isCall
  rwa [none] at call

end Draft

/-! ### Orderly listings -/

namespace Listing

variable {l l' : Listing} {pool functions procedures k temps i q : Nat} {target : Callee}
  {as : List Address} {step : Step}

/-- A call of an orderly listing passes the number of its operands. -/
theorem Orderly.window?_of_isCall (h : l.Orderly pool functions procedures)
    (found : l.steps[k]? = some step) (isCall : step.isCall = true) :
    ∃ n, step.window? = some n := by
  cases h.legal k step found with
  | call => exact ⟨_, rfl⟩
  | nativeCall => exact ⟨_, rfl⟩
  | _ => cases isCall

/-- Only the copy writes a temporary of a window, and it stands in front of the call. -/
theorem Orderly.written_once (h : l.Orderly pool functions procedures)
    (call : CallAt l.steps k temps target as) (lt : i < as.length) :
    ¬ IsParam l.params (Int16.ofNat (temps + i)) ∧
      ∀ q, l.writes? q = some (Int16.ofNat (temps + i)) ↔ q = k - as.length + i := by
  obtain ⟨-, -, copies, -⟩ :=
    h.window k _ as.length call.call (Draft.window?_callStep call.small)
  have le := call.le
  obtain ⟨t, a, copy, param, once⟩ := copies (k - as.length + i) (by omega) (by omega)
  have here := call.copies i _ (List.getElem?_eq_getElem lt)
  rw [copy] at here
  cases here
  refine ⟨param, fun q => ⟨once q, ?_⟩⟩
  rintro rfl
  exact writes?_of_dest copy rfl

/-- The temporaries of a window are new. -/
theorem Orderly.unmentioned (h : l.Orderly pool functions procedures)
    (call : CallAt l.steps k temps target as) (lt : i < as.length) (before : q < k - as.length + i)
    (found : l.steps[q]? = some step) :
    ¬ step.Mentions (.temp (Int16.ofNat (temps + i))) := by
  obtain ⟨param, once⟩ := h.written_once call lt
  rintro (dest | read)
  · exact absurd ((once q).1 (writes?_of_dest found dest)) (Nat.ne_of_lt before)
  · obtain ⟨-, q', lt', writes⟩ := mem_names_iff.1
      ((h.read q _ (h.reads_of_mem_args found read)).resolve_left param)
    have same := (once q').1 writes
    omega

/-- Behind a call only the first temporary of its window is read, and none is written. -/
theorem Orderly.result (h : l.Orderly pool functions procedures)
    (call : CallAt l.steps k temps target as) (lt : i < as.length) (behind : k < q)
    (found : l.steps[q]? = some step) (mentions : step.Mentions (.temp (Int16.ofNat (temps + i)))) :
    i = 0 ∧ step.dest? ≠ some (.temp (Int16.ofNat (temps + i))) := by
  obtain ⟨-, once⟩ := h.written_once call lt
  have le := call.le
  have unwritten : step.dest? ≠ some (.temp (Int16.ofNat (temps + i))) := by
    intro dest
    have same := (once q).1 (writes?_of_dest found dest)
    omega
  refine ⟨Nat.eq_zero_of_not_pos fun later => ?_, unwritten⟩
  have read := h.reads_of_mem_args found (mentions.resolve_left unwritten)
  obtain ⟨-, -, -, rest⟩ := h.window k _ as.length call.call (Draft.window?_callStep call.small)
  exact rest (k - as.length + i) _ (by omega) (by omega) ((once _).2 rfl) ⟨q, behind, read⟩

/-! ### Merges -/

/-- The calls are where they were. -/
theorem isCall_of_merges (orderly : l.Orderly pool functions procedures)
    (merges : Relation.ReflTransGen Merges l l') (found : l'.steps[k]? = some step)
    (isCall : step.isCall = true) : l.steps[k]? = some step := by
  induction merges with
  | refl => exact found
  | tail before merge ih =>
      obtain ⟨n, window⟩ :=
        (orderly.merges (before.tail merge)).window?_of_isCall found isCall
      obtain ⟨bypass, rewrites⟩ := merge
      exact ih (window_replaced bypass rewrites found window).1

/-- And so are the copies of their operands. -/
theorem callAt_of_merges (h : CallAt l.steps k temps target as)
    (merges : Relation.ReflTransGen Merges l l') : CallAt l'.steps k temps target as := by
  induction merges with
  | refl => exact h
  | tail _ merge ih =>
      obtain ⟨bypass, rewrites⟩ := merge
      have window : (Draft.callStep target as.length).window? = some as.length :=
        Draft.window?_callStep ih.small
      refine { ih with copies := fun i a at_ => ?_, call := ?_ }
      · have lt := (List.getElem?_eq_some_iff.1 at_).1
        have le := ih.le
        obtain ⟨first, second⟩ := bypass.unpinned k _ _ (k - as.length + i) ih.call window
          (Nat.le_add_right _ _) (by omega)
        rw [getElem?_replaced first second]
        exact ih.copies i a at_
      · rw [getElem?_replaced, ih.call]
        · rintro rfl
          have writer := ih.call.symm.trans bypass.here
          cases writer
          cases bypass.gives
        · rintro rfl
          have copy := ih.call.symm.trans bypass.copy
          cases copy

end Listing

end RegisterCode
