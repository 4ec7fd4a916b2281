import RegisterCode.Proofs.Flow.Merging
import RegisterCode.Proofs.Flow.Plans
import RegisterCode.Proofs.Flow.Sane

/-!
What a stretch of steps leaves alone. While a journey stays in an activation, and does not go
beyond the stretch, an address that no step of the stretch writes keeps its value. That takes
in what is called meanwhile: an answer goes to a temporary of the window of its call.
-/

namespace RegisterCode

/-- No step of the stretch writes the address, and no call of it has its window elsewhere. -/
structure Listing.Spares (l : Listing) (start stop : Nat) (a : Address) : Prop where
  unwritten : ∀ q < stop, start ≤ q → ∀ step, l.steps[q]? = some step → step.dest? ≠ some a
  windows : ∀ q < stop, start ≤ q → ∀ step n, l.steps[q]? = some step → step.window? = some n →
    start + n ≤ q

variable {c : Chart} {l : Listing} {a : Address} {t : Int16}
  {start stop pool functions procedures : Nat}

/-- Temporaries are all that the value of an address depends on. -/
theorem value?_of_temps {temps temps' : Int16 → Option Value}
    (same : ∀ t, a = .temp t → temps' t = temps t) : c.value? temps' a = c.value? temps a := by
  unfold Chart.value?
  split <;> try rfl
  rename_i space
  exact same a.id (Draft.eq_temp_of_isTemp (decide_eq_true space))

namespace Listing

/-- What is written is a temporary. -/
theorem Orderly.dest_of_writes (h : l.Orderly pool functions procedures) {k : Nat}
    (writes : l.writes? k = some t) :
    ∃ step, l.steps[k]? = some step ∧ step.dest? = some (.temp t) := by
  obtain ⟨step, found, dest⟩ := writes?_eq_some writes
  refine ⟨step, found, ?_⟩
  cases h.legal k step found with
  | copy | neg | binary =>
      cases dest
      rfl
  | _ => cases dest

/-- The answer of a call within the stretch goes elsewhere. -/
theorem Spares.answer (h : l.Spares start stop a) (orderly : l.Orderly pool functions procedures)
    {k n : Nat} {step : Step} (low : start ≤ k) (high : k < stop) (found : l.steps[k]? = some step)
    (window : step.window? = some n) (answer : (l.window k n).head? = some t) : a ≠ .temp t := by
  rintro rfl
  obtain ⟨i, behind, before, writes⟩ := exists_of_mem_window (List.mem_of_head? answer)
  obtain ⟨writer, there, dest⟩ := orderly.dest_of_writes writes
  have le := h.windows k high low step n found window
  exact h.unwritten i (Nat.lt_trans before high) (by omega) writer there dest

end Listing

/-! ### What a step comes to -/

namespace Visit

variable {v w : Visit} {step : Step}

/-- Handing over a window, unless that goes astray, sends the answer to its first temporary. -/
theorem hand_cases (l : Listing) (v : Visit) (n : Nat) (plan : List Value → Int16 → Plan) :
    v.hand l n plan = .astray ∨ ∃ args answer, (l.window v.pos n).head? = some answer ∧
      v.hand l n plan = plan args answer := by
  unfold hand
  split
  · rename_i head
    exact .inr ⟨_, _, head, rfl⟩
  · exact .inl rfl

/-- Going on leads ahead, and changes no temporary but the one that is written. -/
theorem ahead_of_planned (orderly : l.Orderly pool functions procedures)
    (found : l.steps[v.pos]? = some step) (h : v.planned c l step = .go w) :
    v.pos < w.pos ∧ ∀ t, step.dest? ≠ some (.temp t) → w.temps t = v.temps t := by
  have assigned {dest : Int16} {x : Value} (same : v.assign dest x = .go w)
      (written : step.dest? = some (.temp dest)) :
      v.pos < w.pos ∧ ∀ t, step.dest? ≠ some (.temp t) → w.temps t = v.temps t := by
    cases same
    refine ⟨Nat.lt_succ_self _, fun t other => Function.update_of_ne ?_ _ _⟩
    rintro rfl
    exact other written
  have landed (same : v.land l = .go w) : v.pos < w.pos ∧ w.temps = v.temps := by
    rw [Visit.land] at same
    cases landing : l.landing v.pos with
    | none =>
        rw [landing] at same
        cases same
    | some target =>
        rw [landing] at same
        cases same
        exact ⟨(orderly.landing_spec landing).1, rfl⟩
  have handed {n : Nat} {plan : List Value → Int16 → Plan}
      (other : ∀ args answer, plan args answer ≠ .go w) : v.hand l n plan ≠ .go w := by
    rcases hand_cases l v n plan with astray | ⟨args, answer, -, plans⟩
    · rw [astray]
      exact Plan.noConfusion
    · rw [plans]
      exact other args answer
  cases orderly.legal v.pos step found with
  | copy t sound =>
      simp only [planned] at h
      split at h
      · exact assigned h rfl
      · cases h
  | neg t sound =>
      simp only [planned] at h
      split at h
      · split at h
        · cases h
        · exact assigned h rfl
      · cases h
  | binary t op sound sound' =>
      simp only [planned] at h
      split at h
      · split at h
        · exact assigned h rfl
        · cases h
      · cases h
  | jump =>
      obtain ⟨lt, same⟩ := landed h
      exact ⟨lt, fun t _ => congrFun same t⟩
  | ret sound =>
      simp only [planned] at h
      split at h <;> cases h
  | jumpElse sound =>
      simp only [planned] at h
      split at h
      · split at h
        · cases h
          exact ⟨Nat.lt_succ_self _, fun _ _ => rfl⟩
        · obtain ⟨lt, same⟩ := landed h
          exact ⟨lt, fun t _ => congrFun same t⟩
        · cases h
      · cases h
  | call => exact absurd h (handed fun _ _ => Plan.noConfusion)
  | nativeCall => exact absurd h (handed fun _ _ => Plan.noConfusion)
  | _ =>
      cases h
      exact ⟨Nat.lt_succ_self _, fun _ _ => rfl⟩

/-- An answer goes to the first temporary of the window. -/
theorem answer_of_planned (orderly : l.Orderly pool functions procedures)
    (found : l.steps[v.pos]? = some step) {id : Nat} {args : List Value} {answer : Int16}
    (h : v.planned c l step = .call id args answer ∨ v.planned c l step = .perform id args answer) :
    ∃ n, step.window? = some n ∧ (l.window v.pos n).head? = some answer := by
  have answered {n : Nat} {plan : List Value → Int16 → Plan} {p : Plan}
      (plans : v.hand l n plan = p) (fine : p ≠ .astray)
      (sends : ∀ args answer', plan args answer' = p → answer' = answer) :
      (l.window v.pos n).head? = some answer := by
    rcases hand_cases l v n plan with astray | ⟨args, answer', head, planned⟩
    · exact absurd (plans.symm.trans astray) fine
    · rw [head, sends args answer' (planned.symm.trans plans)]
  have landed : v.land l ≠ .call id args answer ∧ v.land l ≠ .perform id args answer := by
    rw [Visit.land]
    split <;> exact ⟨Plan.noConfusion, Plan.noConfusion⟩
  cases orderly.legal v.pos step found with
  | call =>
      refine ⟨_, rfl, ?_⟩
      rcases h with h | h
      · exact answered h Plan.noConfusion fun _ _ same => (Plan.call.inj same).2.2
      · exact answered h Plan.noConfusion fun _ _ => Plan.noConfusion
  | nativeCall =>
      refine ⟨_, rfl, ?_⟩
      rcases h with h | h
      · exact answered h Plan.noConfusion fun _ _ => Plan.noConfusion
      · exact answered h Plan.noConfusion fun _ _ same => (Plan.perform.inj same).2.2
  | _ =>
      exfalso
      rcases h with h | h <;> simp only [planned, assign] at h
      all_goals repeat' split at h
      all_goals first
        | exact landed.1 h
        | exact landed.2 h
        | cases h

end Visit

namespace Journey

variable {j k : Journey}

/-- What a journey is when its plan has been carried out and it goes on. -/
inductive Goes (j k : Journey) : Plan → Prop where
  | go {v : Visit} (waiting : k.waiting = j.waiting) (visit : k.visit = v) : Goes j k (.go v)
  | leave {x : Value} {w : Waiting} (waiting : j.waiting = w :: k.waiting)
      (visit : k.visit = w.visit.set w.answer x) : Goes j k (.leave x)
  | call {func : Nat} {args : List Value} {answer : Int16}
      (waiting : k.waiting = ⟨j.visit.move, answer⟩ :: j.waiting) :
      Goes j k (.call func args answer)
  | perform {id : Nat} {args : List Value} {answer : Int16} {x : Value}
      (waiting : k.waiting = j.waiting) (visit : k.visit = (j.visit.set answer x).move) :
      Goes j k (.perform id args answer)

theorem goes_of_carryOut {p : Plan} (h : j.carryOut c p = .on k) : j.Goes k p := by
  cases p with
  | go v =>
      cases h
      exact .go rfl rfl
  | fail fault => cases h
  | leave x =>
      simp only [carryOut, Journey.leave] at h
      split at h
      · cases h
      · rename_i waiting
        cases h
        exact .leave waiting rfl
  | call func args answer =>
      simp only [carryOut] at h
      split at h
      · split at h
        · cases h
          exact .call rfl
        · cases h
      · cases h
  | perform id args answer =>
      simp only [carryOut] at h
      split at h
      · split at h
        · cases h
          exact .perform rfl rfl
        · cases h
      · cases h
  | astray => cases h

theorem goes_of_step (h : j.step c = .on k) :
    ∃ l step, c.listings[j.visit.func]? = some l ∧ l.steps[j.visit.pos]? = some step ∧
      j.Goes k (j.visit.planned c l step) := by
  unfold Journey.step at h
  split at h
  · cases h
  · rename_i l known
    split at h
    · cases h
    · rename_i step found
      rw [act_eq] at h
      exact ⟨l, step, known, found, goes_of_carryOut h⟩

/-- A journey goes on, and does not leave the activation that `j` is in. -/
def Stays (c : Chart) (j : Journey) : Journey → Prop :=
  Relation.ReflTransGen (fun k m => k.step c = .on m ∧ j.waiting.length ≤ m.waiting.length) j

/-- Of the activation on top of `base`, something is known when it goes on: now, or when what it
has called gives its answer. -/
inductive Holds (known : Visit → Prop) (base : List Waiting) (k : Journey) : Prop where
  | here (waiting : k.waiting = base) (visit : known k.visit)
  | below (above : List Waiting) {w : Waiting} (waiting : k.waiting = above ++ w :: base)
      (visit : ∀ x, known (w.visit.set w.answer x))

/-- The address still has its value, unless the activation has gone beyond the stretch. -/
structure Holding (c : Chart) (f start stop : Nat) (a : Address) (value : Option Value)
    (v : Visit) : Prop where
  func : v.func = f
  low : start ≤ v.pos
  value : v.pos ≤ stop → c.value? v.temps a = value

theorem Holding.next {f : Nat} {value : Option Value} {v w : Visit}
    (h : Holding c f start stop a value v) (func : w.func = f) (ahead : v.pos < w.pos)
    (same : w.pos ≤ stop → ∀ t, a = .temp t → w.temps t = v.temps t) :
    Holding c f start stop a value w where
  func := func
  low := Nat.le_of_lt (Nat.lt_of_le_of_lt h.low ahead)
  value le := by
    rw [value?_of_temps (same le)]
    exact h.value (Nat.le_of_lt (Nat.lt_of_lt_of_le ahead le))

theorem Holds.step {f : Nat} {value : Option Value} {base : List Waiting}
    (known : c.listings[f]? = some l) (orderly : l.Orderly pool functions procedures)
    (spares : l.Spares start stop a) (h : j.Holds (Holding c f start stop a value) base)
    (goes : j.step c = .on k) (deep : base.length ≤ k.waiting.length) :
    k.Holds (Holding c f start stop a value) base := by
  obtain ⟨l', step, known', found, goes⟩ := goes_of_step goes
  generalize plan : j.visit.planned c l' step = p at goes
  cases h with
  | here waiting visit =>
      rw [visit.func, known] at known'
      cases known'
      have answers {id : Nat} {args : List Value} {answer : Int16}
          (plan : j.visit.planned c l step = .call id args answer ∨
            j.visit.planned c l step = .perform id args answer) (x : Value) :
          Holding c f start stop a value (j.visit.set answer x).move := by
        obtain ⟨n, window, head⟩ := Visit.answer_of_planned orderly found plan
        refine visit.next visit.func (Nat.lt_succ_self _) fun le t same => ?_
        have other := spares.answer orderly visit.low le found window head
        refine Function.update_of_ne ?_ _ _
        rintro rfl
        exact other same
      cases goes with
      | go waiting' visit' =>
          obtain ⟨ahead, others⟩ := Visit.ahead_of_planned orderly found plan
          refine .here (waiting'.trans waiting) ?_
          rw [visit']
          refine visit.next ((planned_go plan).trans visit.func) ahead fun le t same => others t ?_
          rw [← same]
          exact spares.unwritten _ (Nat.lt_of_lt_of_le ahead le) visit.low step found
      | leave waiting' =>
          rw [← waiting, waiting', List.length_cons] at deep
          omega
      | call waiting' =>
          rw [waiting] at waiting'
          exact .below [] waiting' (answers (.inl plan))
      | perform waiting' visit' =>
          refine .here (waiting'.trans waiting) ?_
          rw [visit']
          exact answers (.inr plan) _
  | @below above w waiting visit =>
      cases goes with
      | go waiting' => exact .below above (waiting'.trans waiting) visit
      | leave waiting' visit' =>
          rw [waiting] at waiting'
          cases above with
          | nil =>
              obtain ⟨rfl, same⟩ := List.cons.inj waiting'
              refine .here same.symm ?_
              rw [visit']
              exact visit _
          | cons first above =>
              exact .below above (List.cons.inj waiting').2.symm visit
      | call waiting' =>
          rw [waiting] at waiting'
          exact .below (_ :: above) waiting' visit
      | perform waiting' => exact .below above (waiting'.trans waiting) visit

/-- An address that a stretch leaves alone keeps its value there. -/
theorem Stays.value (h : Stays c j k) (known : c.listings[j.visit.func]? = some l)
    (orderly : l.Orderly pool functions procedures) (spares : l.Spares j.visit.pos stop a)
    (back : k.waiting.length = j.waiting.length) (within : k.visit.pos ≤ stop) :
    c.value? k.visit.temps a = c.value? j.visit.temps a := by
  have holds : k.Holds (Holding c j.visit.func j.visit.pos stop a (c.value? j.visit.temps a))
      j.waiting := by
    clear back within
    induction h with
    | refl => exact .here rfl ⟨rfl, Nat.le_refl _, fun _ => rfl⟩
    | tail _ next ih => exact ih.step known orderly spares next.1 next.2
  cases holds with
  | here _ visit => exact visit.value within
  | below above waiting =>
      rw [waiting, List.length_append, List.length_cons] at back
      omega

end Journey

end RegisterCode
