import RegisterCode.Proofs.Tree.Names
import RegisterCode.Proofs.Tree.Outcomes

/-!
Activations: a journey stands where the compilation of a function got to, and
its temporaries hold the variables and the operands that the evaluation has.
-/

namespace RegisterCode

open Draft

/-- The function that an evaluation and a journey are in. Functions that are called
answer as they should. -/
structure Site (c : Chart) (s : Scope) (f : Nat) (l : Listing) (depth : Nat) : Prop where
  known : c.listings[f]? = some l
  orderly : l.Orderly c.constants.size c.listings.length c.procedures.size
  table : c.procedures = s.table
  below : s.registry.Below c.procedures.size
  arity : ∀ (g : Nat) (function : Declaration), s.functions[g]? = some function →
    ∃ callee, c.listings[g]? = some callee ∧ callee.params = function.params.length
  answers : ∀ (g : Nat) (function : Declaration) (callee : Listing) (args : List Value)
    (waiting : List Waiting) (w : World),
    s.functions[g]? = some function → c.listings[g]? = some callee →
    args.length = max 1 function.params.length →
    Journey.Answers c depth ⟨⟨g, 0, callee.entered args⟩, waiting, w⟩ (s.call g args w)

/-- The journey is where the compilation is, and every variable that is set is held
by its temporary. -/
structure At (f : Nat) (d : Draft) (scene : Scene) (j : Journey) : Prop where
  func : j.visit.func = f
  pos : j.visit.pos = d.graph.steps.length
  world : j.world = scene.world
  locals : ∀ (name : String) (v : Value), scene.locals name = some v →
    ∃ t, d.locals[name]? = some (.temp t) ∧ j.visit.temps t = some v

/-- Of the temporaries that are in use, only those with a name have changed. -/
def Apart (d : Draft) (temps temps' : Int16 → Option Value) : Prop :=
  ∀ t, numberOf t < d.temps → ¬ d.Owned t → temps' t = temps t

/-- An operand can be read at an address. A value stays there. -/
def Denotes (c : Chart) (d : Draft) (r : Reading) (a : Address)
    (temps : Int16 → Option Value) : Prop :=
  match r with
  | .value v => c.value? temps a = some v ∧
      ∀ t, a = .temp t → numberOf t < d.temps ∧ ¬ d.Owned t
  | .named name => d.locals[name]? = some a

variable {c : Chart} {s : Scope} {f : Nat} {l : Listing} {depth : Nat} {d d' : Draft}
  {scene : Scene} {j k : Journey} {a : Address} {r : Reading} {α : Type}
  {temps temps' : Int16 → Option Value}

theorem Apart.refl : Apart d temps temps := fun _ _ _ => rfl

theorem Apart.trans {temps'' : Int16 → Option Value} (h : Apart d temps temps')
    (beside : d.Beside d') (h' : Apart d' temps' temps'') : Apart d temps temps'' := by
  intro t within unnamed
  have unnamed' : ¬ d'.Owned t := by rwa [Owned, beside.same_locals]
  exact (h' t (Nat.lt_of_lt_of_le within beside.temps_le) unnamed').trans (h t within unnamed)

/-- Writing a new temporary changes none of those in use. -/
theorem Apart.update (limit : d.temps < numberLimit) (x : Option Value) :
    Apart d temps (Function.update temps (Int16.ofNat d.temps) x) := by
  intro t within _
  refine Function.update_of_ne ?_ _ _
  rintro rfl
  rw [numberOf_ofNat limit] at within
  exact Nat.lt_irrefl _ within

namespace Denotes

theorem later (h : Denotes c d r a temps) (beside : d.Beside d') (apart : Apart d temps temps') :
    Denotes c d' r a temps' := by
  cases r with
  | value v =>
      refine ⟨?_, fun t same => ?_⟩
      · rw [← h.1]
        unfold Chart.value?
        split <;> try rfl
        rename_i space
        have temp : a = .temp a.id := eq_temp_of_isTemp (decide_eq_true space)
        exact apart a.id (h.2 _ temp).1 (h.2 _ temp).2
      · rw [Owned, beside.same_locals]
        exact ⟨Nat.lt_of_lt_of_le (h.2 t same).1 beside.temps_le, (h.2 t same).2⟩
  | named name =>
      show d'.locals[name]? = _
      rw [beside.same_locals]
      exact h

/-- What consuming an operand comes to. -/
theorem get (h : Denotes c d r a j.visit.temps) (here : At f d scene j) :
    (∃ v, r.get scene = .ok v scene ∧ c.value? j.visit.temps a = some v) ∨
      r.get scene = .error .undefined scene := by
  cases r with
  | value v => exact .inl ⟨v, rfl, h.1⟩
  | named name =>
      rw [Reading.get, bind_of_ok (get_apply scene)]
      cases set' : scene.locals name with
      | none => exact .inr rfl
      | some v =>
          obtain ⟨t, known, held⟩ := here.locals name v set'
          have same : some a = some (.temp t) := h.symm.trans known
          cases same
          exact .inl ⟨v, rfl, held⟩

/-- To consume an operand is to go on with its value. -/
theorem bind_get {β : Type} {next : Value → Evaluating β} {depth : Nat}
    {Q : β → Scene → Journey → Prop} (h : Denotes c d r a j.visit.temps)
    (here : At f d scene j)
    (does : ∀ v, c.value? j.visit.temps a = some v → j.Does c depth (next v scene) Q) :
    j.Does c depth ((r.get >>= next) scene) Q := by
  rcases h.get here with ⟨v, run, value⟩ | run
  · rw [bind_of_ok run]
    exact does v value
  · rw [bind_of_error run]
    exact Journey.Does.undefined

end Denotes

/-! ### Steps -/

/-- A step that the compilation has added is where it was added. -/
theorem step_at {pre : List Step} {step : Step} (steps : pre ++ [step] <+: l.steps) :
    l.steps[pre.length]? = some step := by
  obtain ⟨rest, all⟩ := steps
  rw [← all, List.append_assoc, List.getElem?_append_right (Nat.le_refl _), Nat.sub_self]
  rfl

/-- The journey takes the step that the compilation has added. -/
theorem At.step (h : At f d scene j) (known : c.listings[f]? = some l) {step : Step}
    (steps : d.graph.steps ++ [step] <+: l.steps) : j.step c = j.act c l step := by
  have there := step_at steps
  rw [← h.pos] at there
  simp only [Journey.step, h.func, known, there]

/-- A step that gives a new temporary a value. -/
theorem At.computed (h : At f d scene j) (sane : d.Sane c.procedures.size)
    (limit : d.temps < numberLimit) (g : Address → Step) (x : Value) :
    At f (d.computed g) scene (j.withVisit (j.visit.set (Int16.ofNat d.temps) x).move) where
  func := h.func
  pos := by
    have steps : (d.computed g).graph.steps =
        d.graph.steps ++ [g (.temp (Int16.ofNat d.temps))] := Graph.steps_pushNewest sane.opened
    rw [steps, List.length_append]
    exact congrArg (· + 1) h.pos
  world := h.world
  locals name v set' := by
    obtain ⟨t, known, held⟩ := h.locals name v set'
    refine ⟨t, known, (Function.update_of_ne ?_ _ _).trans held⟩
    rintro rfl
    have below := (sane.growing.owned _ ⟨name, known⟩).1
    rw [numberOf_ofNat limit] at below
    exact Nat.lt_irrefl _ below

/-- The operand that a new temporary was computed for. -/
theorem denotes_computed (sane : d.Sane c.procedures.size) (limit : d.temps < numberLimit)
    (g : Address → Step) (v : Value) :
    Denotes c (d.computed g) (.value v) (.temp (Int16.ofNat d.temps))
      (Function.update j.visit.temps (Int16.ofNat d.temps) (some v)) := by
  refine ⟨Function.update_self .., fun t same => ?_⟩
  cases same
  have number := numberOf_ofNat limit
  refine ⟨?_, fun ⟨name, known⟩ => ?_⟩
  · show numberOf (Int16.ofNat d.temps) < d.temps + 1
    omega
  · have below := (sane.growing.owned _ ⟨name, known⟩).1
    omega

/-! ### Calls -/

/-- The temporaries of a window. -/
def windowTemps (temps n : Nat) : List Int16 := (List.range' temps n).map Int16.ofNat

theorem filterMap_copies (temps : Nat) (as : List Address) :
    (copies temps as).filterMap (fun step => step.dest?.map Address.id) =
      windowTemps temps as.length := by
  induction as generalizing temps with
  | nil => rfl
  | cons a as ih =>
      have first : (Step.copy (.temp (Int16.ofNat temps)) a).dest?.map Address.id =
          some (Int16.ofNat temps) := rfl
      rw [copies, List.filterMap_cons, first, ih, List.length_cons, windowTemps, windowTemps,
        List.range'_succ, List.map_cons]

theorem window_of_prefix {pre rest : List Step} {temps : Nat} {as : List Address}
    (all : l.steps = pre ++ copies temps as ++ rest) :
    l.window (pre ++ copies temps as).length as.length = windowTemps temps as.length := by
  have length : (pre ++ copies temps as).length - as.length = pre.length := by simp
  rw [Listing.window, all, List.take_left, length, List.drop_left, filterMap_copies]

/-- Copying the operands of a call reads them one after the other. -/
theorem copied_does {depth : Nat} (known : c.listings[f]? = some l) {rs : List Reading}
    {as : List Address} (sane : d.Sane c.procedures.size)
    (limit : d.temps + as.length ≤ numberLimit) (usable : ∀ a ∈ as, d.Usable a)
    (steps : (d.copied as).graph.steps <+: l.steps) (here : At f d scene j)
    (denotes : List.Forall₂ (fun r a => Denotes c d r a j.visit.temps) rs as) :
    j.Does c depth ((rs.mapM Reading.get) scene) fun values scene' k => scene' = scene ∧
      At f (d.copied as) scene k ∧ Apart d j.visit.temps k.visit.temps ∧
      (windowTemps d.temps as.length).mapM k.visit.temps = some values := by
  induction as generalizing d j rs with
  | nil =>
      cases denotes
      exact .ok ⟨rfl, here, .refl, rfl⟩
  | cons a as ih =>
      obtain ⟨r, rs, first, rest, rfl⟩ := List.forall₂_cons_right_iff.1 denotes
      rw [List.length_cons] at limit
      have bound : d.temps < numberLimit := by omega
      have gives := Gives.computed sane (f := (.copy · a)) bound
        (.copy _ (usable a List.mem_cons_self).sound) rfl rfl rfl
        (by simpa [Step.copy, Step.args] using usable a List.mem_cons_self)
      have added : d.graph.steps ++ [.copy (.temp (Int16.ofNat d.temps)) a] <+: l.steps := by
        rw [Draft.copied, steps_copied gives.sane.opened] at steps
        have one : (d.computed (.copy · a)).graph.steps =
            d.graph.steps ++ [.copy (.temp (Int16.ofNat d.temps)) a] :=
          Graph.steps_pushNewest sane.opened
        rw [one] at steps
        exact (List.prefix_append _ _).trans steps
      rw [List.mapM_cons]
      refine first.bind_get here fun v value => ?_
      have step : j.step c = .on (j.withVisit (j.visit.set (Int16.ofNat d.temps) v).move) := by
        rw [here.step known added]
        simp only [Step.copy, Journey.act, value]
        rfl
      refine .of_step step rfl ?_
      refine .bind (ih gives.sane (by show d.temps + 1 + as.length ≤ _; omega)
        (fun b mem => (usable b (List.mem_cons_of_mem _ mem)).onward gives.beside.toOnward) steps
        (here.computed sane bound _ v)
        (rest.imp fun r a h => h.later gives.beside (.update bound _)))
        fun values scene' k after _ => ?_
      obtain ⟨rfl, there, apart, held⟩ := after
      refine .ok ⟨rfl, there, Apart.trans (.update bound _) gives.beside apart, ?_⟩
      have number := numberOf_ofNat bound
      have unnamed : ¬ (d.computed (.copy · a)).Owned (Int16.ofNat d.temps) := by
        rintro ⟨name, known⟩
        have below := (sane.growing.owned _ ⟨name, known⟩).1
        omega
      have head : k.visit.temps (Int16.ofNat d.temps) = some v := by
        rw [apart _ (by show numberOf (Int16.ofNat d.temps) < d.temps + 1; omega) unnamed]
        exact Function.update_self ..
      have tail : (windowTemps (d.temps + 1) as.length).mapM k.visit.temps = some values := held
      rw [List.length_cons, windowTemps, List.range'_succ, List.map_cons, List.mapM_cons, head]
      rw [windowTemps] at tail
      rw [tail]
      rfl

end RegisterCode
