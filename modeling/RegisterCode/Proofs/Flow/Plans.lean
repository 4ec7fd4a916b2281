import Mathlib.Logic.Relation
import RegisterCode.Proofs.Flow.Journey

/-!
Journeys through two charts side by side. What a step is going to do is decided inside its
activation (`planned`), so it is enough to compare the activations of each function
(`Listing.Simulates`): from that, journeys through the whole charts stay side by side
(`Journey.Alike.step`).
-/

namespace RegisterCode

/-! ### Plans -/

/-- What a step is going to do, as far as its activation decides it. -/
inductive Plan where
  | go (v : Visit)
  | fail (fault : Fault)
  | leave (x : Value)
  | call (func : Nat) (args : List Value) (answer : Int16)
  | perform (id : Nat) (args : List Value) (answer : Int16)
  | astray

namespace Visit

/-- Gives a temporary a value and goes on. -/
def assign (v : Visit) (t : Int16) (x : Value) : Plan := .go (v.set t x).move

/-- Jumps to where the jump at hand lands. -/
def land (l : Listing) (v : Visit) : Plan :=
  match l.landing v.pos with
  | some target => .go (v.jump target)
  | none => .astray

/-- Hands over the values of a window, with the temporary that the answer goes to. -/
def hand (l : Listing) (v : Visit) (n : Nat) (plan : List Value → Int16 → Plan) : Plan :=
  match (l.window v.pos n).mapM v.temps, (l.window v.pos n).head? with
  | some args, some answer => plan args answer
  | _, _ => .astray

/-- The plan of a step. -/
def planned (c : Chart) (l : Listing) (v : Visit) : Step → Plan
  | .unary dest .nop arg =>
    match c.value? v.temps arg with
    | some x => v.assign dest.id x
    | none => .astray
  | .unary dest .neg arg =>
    match c.value? v.temps arg with
    | some x => if x.neg.isDud then .fail .badOperands else v.assign dest.id x.neg
    | none => .astray
  | .binary dest (.binary op) left right =>
    match c.value? v.temps left, c.value? v.temps right with
    | some x, some y =>
      match op.outcome x y with
      | .ok z => v.assign dest.id z
      | .error fault => .fail fault
    | _, _ => .astray
  | .act _ => .go v.move
  | .actOn .jump _ => v.land l
  | .actOn .ret arg =>
    match c.value? v.temps arg with
    | some x => .leave x
    | none => .astray
  | .actOnTwo .jumpElse arg _ =>
    match c.value? v.temps arg with
    | some x =>
      match x.truthy? with
      | some true => .go v.move
      | some false => v.land l
      | none => .fail .undecidedCondition
    | none => .astray
  | .actOnTwo .call func count =>
    v.hand l count.id.toNatClampNeg (.call func.id.toNatClampNeg)
  | .actOnTwo .nativeCall id count =>
    v.hand l count.id.toNatClampNeg (.perform id.id.toNatClampNeg)
  | _ => .astray

end Visit

namespace Journey

/-- What a plan comes to. -/
def carryOut (c : Chart) (j : Journey) : Plan → Turn
  | .go v => .on (j.withVisit v)
  | .fail fault => .failed fault j.world
  | .leave x => j.leave x
  | .call func args answer =>
    match c.listings[func]? with
    | some callee =>
      if args.length ≤ max 1 callee.params then
        .on ⟨⟨func, 0, callee.entered args⟩, ⟨j.visit.move, answer⟩ :: j.waiting, j.world⟩
      else .astray
    | none => .astray
  | .perform id args answer =>
    match c.procedures[id]? with
    | some procedure =>
      match procedure.perform args j.world with
      | (.ok v, w) => assign { j with world := w } answer v
      | (.error fault, w) => .failed fault w
    | none => .astray
  | .astray => .astray

/-- A step carries out its plan. -/
theorem act_eq (c : Chart) (l : Listing) (j : Journey) (step : Step) :
    j.act c l step = j.carryOut c (j.visit.planned c l step) := by
  have land : j.land l = j.carryOut c (j.visit.land l) := by
    rw [Journey.land, Visit.land]
    cases l.landing j.visit.pos <;> rfl
  have hand (n : Nat) (plan : List Value → Int16 → Plan) (turn : List Value → Int16 → Turn)
      (same : ∀ args answer, j.carryOut c (plan args answer) = turn args answer) :
      j.carryOut c (j.visit.hand l n plan) =
        match j.passed l n with
        | some (args, answer) => turn args answer
        | none => .astray := by
    rw [Visit.hand, passed]
    cases (l.window j.visit.pos n).mapM j.visit.temps with
    | none => rfl
    | some args =>
        cases (l.window j.visit.pos n).head? with
        | none => rfl
        | some answer => exact same args answer
  cases step with
  | unary dest op arg =>
      cases op with
      | nop =>
          simp only [act, Visit.planned]
          cases c.value? j.visit.temps arg <;> rfl
      | neg =>
          simp only [act, Visit.planned]
          cases c.value? j.visit.temps arg with
          | none => rfl
          | some x =>
              dsimp only
              cases x.neg.isDud <;> rfl
      | _ => rfl
  | binary dest op left right =>
      cases op with
      | binary op =>
          simp only [act, Visit.planned]
          cases c.value? j.visit.temps left with
          | none => rfl
          | some x =>
              cases c.value? j.visit.temps right with
              | none => rfl
              | some y =>
                  dsimp only
                  cases op.outcome x y <;> rfl
      | _ => rfl
  | act op => rfl
  | actOn op arg =>
      cases op with
      | jump => exact land
      | ret =>
          simp only [act, Visit.planned]
          cases c.value? j.visit.temps arg <;> rfl
      | _ => rfl
  | actOnTwo op first second =>
      cases op with
      | jumpElse =>
          simp only [act, Visit.planned]
          cases c.value? j.visit.temps first with
          | none => rfl
          | some x =>
              dsimp only
              cases x.truthy? with
              | none => rfl
              | some truth =>
                  cases truth with
                  | true => rfl
                  | false => exact land
      | call =>
          simp only [act, Visit.planned]
          rw [hand _ _ _ fun _ _ => rfl, Journey.call]
          cases j.passed l second.id.toNatClampNeg with
          | none => rfl
          | some handed =>
              dsimp only [carryOut]
              cases c.listings[first.id.toNatClampNeg]? <;> rfl
      | nativeCall =>
          simp only [act, Visit.planned]
          rw [hand _ _ _ fun _ _ => rfl, Journey.callProcedure]
          cases j.passed l second.id.toNatClampNeg with
          | none => rfl
          | some handed =>
              dsimp only [carryOut]
              cases c.procedures[first.id.toNatClampNeg]? <;> rfl
      | _ => rfl

end Journey

/-! ### Plans that are alike -/

/-- How the temporaries of two activations at the same position are related. -/
abbrev Likeness := Nat → (Int16 → Option Value) → (Int16 → Option Value) → Prop

/-- Likenesses one after the other. -/
def Likeness.comp (R R' : Likeness) : Likeness := fun pos temps temps'' =>
  ∃ temps', R pos temps temps' ∧ R' pos temps' temps''

namespace Plan

/-- Two plans that do the same, and after which the temporaries are related. A function
that is called may answer anything. -/
inductive Alike (R : Likeness) (pos : Nat) (temps temps' : Int16 → Option Value) :
    Plan → Plan → Prop where
  | go {v v' : Visit} (func : v'.func = v.func) (at_ : v'.pos = v.pos)
    (related : R v.pos v.temps v'.temps) : Alike R pos temps temps' (.go v) (.go v')
  | fail (fault : Fault) : Alike R pos temps temps' (.fail fault) (.fail fault)
  | leave (x : Value) : Alike R pos temps temps' (.leave x) (.leave x)
  | call (func : Nat) (args : List Value) (answer : Int16)
    (related : ∀ x, R (pos + 1) (Function.update temps answer (some x))
      (Function.update temps' answer (some x))) :
    Alike R pos temps temps' (.call func args answer) (.call func args answer)
  | perform (id : Nat) (args : List Value) (answer : Int16)
    (related : ∀ x, R (pos + 1) (Function.update temps answer (some x))
      (Function.update temps' answer (some x))) :
    Alike R pos temps temps' (.perform id args answer) (.perform id args answer)

variable {R R' : Likeness} {pos : Nat} {temps temps' temps'' : Int16 → Option Value}
  {p q r : Plan}

theorem Alike.ne_astray (h : Alike R pos temps temps' p q) : q ≠ .astray := by
  cases h <;> nofun

theorem Alike.comp (h : Alike R pos temps temps' p q) (h' : Alike R' pos temps' temps'' q r) :
    Alike (R.comp R') pos temps temps'' p r := by
  cases h with
  | go func at_ related =>
      cases h' with
      | go func' at_' related' =>
          rw [at_] at related'
          exact .go (func'.trans func) (at_'.trans at_) ⟨_, related, related'⟩
  | fail =>
      cases h'
      exact .fail _
  | leave =>
      cases h'
      exact .leave _
  | call _ _ _ related =>
      cases h' with
      | call _ _ _ related' => exact .call _ _ _ fun x => ⟨_, related x, related' x⟩
  | perform _ _ _ related =>
      cases h' with
      | perform _ _ _ related' => exact .perform _ _ _ fun x => ⟨_, related x, related' x⟩

end Plan

/-! ### Listings that do the same -/

namespace Listing

/-- The steps of one listing do what those of the other do at the same positions, and keep
the temporaries of both related. -/
structure Simulates (c : Chart) (l l' : Listing) (R : Likeness) : Prop where
  params : l'.params = l.params
  length : l'.steps.length = l.steps.length
  enter : ∀ args : List Value, args.length ≤ max 1 l.params → R 0 (l.entered args) (l'.entered args)
  step : ∀ (v v' : Visit) (step step' : Step), v'.func = v.func → v'.pos = v.pos →
    R v.pos v.temps v'.temps → l.steps[v.pos]? = some step → l'.steps[v.pos]? = some step' →
    v.planned c l step ≠ .astray →
    Plan.Alike R v.pos v.temps v'.temps (v.planned c l step) (v'.planned c l' step')

theorem Simulates.refl (c : Chart) (l : Listing) :
    Simulates c l l fun _ temps temps' => temps' = temps where
  params := rfl
  length := rfl
  enter _ _ := rfl
  step v v' step step' func pos same found found' fine := by
    obtain rfl : v' = v := by
      cases v
      cases v'
      cases func
      cases pos
      cases same
      rfl
    rw [found] at found'
    cases found'
    cases plan : v'.planned c l step with
    | astray => exact absurd plan fine
    | go w => exact .go rfl rfl rfl
    | fail fault => exact .fail fault
    | leave x => exact .leave x
    | call func args answer => exact .call func args answer fun _ => rfl
    | perform id args answer => exact .perform id args answer fun _ => rfl

theorem Simulates.comp {c : Chart} {l l' l'' : Listing} {R R' : Likeness}
    (h : Simulates c l l' R) (h' : Simulates c l' l'' R') :
    Simulates c l l'' (R.comp R') where
  params := h'.params.trans h.params
  length := h'.length.trans h.length
  enter args fits := ⟨_, h.enter args fits, h'.enter args (h.params.symm ▸ fits)⟩
  step v v'' step step'' func pos := by
    rintro ⟨temps', related, related'⟩ found found'' fine
    have inside : v.pos < l'.steps.length := by
      rw [h.length]
      exact (List.getElem?_eq_some_iff.1 found).1
    have found' := List.getElem?_eq_getElem inside
    have first := h.step v ⟨v.func, v.pos, temps'⟩ step _ rfl rfl related found found' fine
    exact first.comp (h'.step ⟨v.func, v.pos, temps'⟩ v'' _ step'' func pos related' found' found''
      first.ne_astray)

end Listing

/-! ### Journeys side by side -/

namespace Chart

/-- The listings of one chart do what those of the other do. -/
structure Simulates (c c' : Chart) : Prop where
  constants : c'.constants = c.constants
  procedures : c'.procedures = c.procedures
  listing : ∀ (f : Nat) (l : Listing), c.listings[f]? = some l →
    ∃ l' R, c'.listings[f]? = some l' ∧ l.Simulates c l' R

theorem value?_congr {c c' : Chart} (same : c'.constants = c.constants) :
    c'.value? = c.value? := by
  funext temps a
  rw [value?, value?, same]

end Chart

theorem Visit.planned_congr {c c' : Chart} (same : c'.constants = c.constants) (l : Listing)
    (v : Visit) (step : Step) : v.planned c' l step = v.planned c l step := by
  unfold planned
  rw [Chart.value?_congr same]

/-- Visits of the same position, with temporaries that are related. -/
def Visit.Alike (c c' : Chart) (v v' : Visit) : Prop :=
  v'.func = v.func ∧ v'.pos = v.pos ∧ ∃ l l' R, c.listings[v.func]? = some l ∧
    c'.listings[v.func]? = some l' ∧ l.Simulates c l' R ∧ R v.pos v.temps v'.temps

/-- Callers that are alike whatever they get for an answer. -/
def Waiting.Alike (c c' : Chart) (w w' : Waiting) : Prop :=
  w'.answer = w.answer ∧ ∀ x, (w.visit.set w.answer x).Alike c c' (w'.visit.set w.answer x)

/-- Journeys that are at the same position in the same world. -/
structure Journey.Alike (c c' : Chart) (j j' : Journey) : Prop where
  visit : j.visit.Alike c c' j'.visit
  waiting : List.Forall₂ (Waiting.Alike c c') j.waiting j'.waiting
  world : j'.world = j.world

/-- Turns that come to the same. -/
inductive Turn.Alike (c c' : Chart) : Turn → Turn → Prop where
  | on {j j' : Journey} (alike : j.Alike c c' j') : Alike c c' (.on j) (.on j')
  | finished (v : Value) (w : World) : Alike c c' (.finished v w) (.finished v w)
  | failed (fault : Fault) (w : World) : Alike c c' (.failed fault w) (.failed fault w)

namespace Journey

variable {c c' : Chart} {j j' : Journey}

/-- Carrying out plans that are alike. -/
theorem Alike.carryOut (simulates : c.Simulates c') (h : j.Alike c c' j') {l l' : Listing}
    {R : Likeness} (known : c.listings[j.visit.func]? = some l)
    (known' : c'.listings[j.visit.func]? = some l') (same : l.Simulates c l' R) {p p' : Plan}
    (keeps : ∀ v, p = .go v → v.func = j.visit.func)
    (alike : Plan.Alike R j.visit.pos j.visit.temps j'.visit.temps p p')
    (fine : j.carryOut c p ≠ .astray) :
    Turn.Alike c c' (j.carryOut c p) (j'.carryOut c' p') := by
  obtain ⟨func, pos, -⟩ := h.visit
  have world := h.world
  -- The activation behind the step, when an answer has been set.
  have answered {answer : Int16} (related : ∀ x, R (j.visit.pos + 1)
      (Function.update j.visit.temps answer (some x))
      (Function.update j'.visit.temps answer (some x))) (x : Value) :
      (j.visit.move.set answer x).Alike c c' (j'.visit.move.set answer x) :=
    ⟨func, congrArg Nat.succ pos, l, l', R, known, known', same, related x⟩
  cases alike with
  | @go v v' func' pos' related =>
      have func'' := keeps v rfl
      exact .on ⟨⟨func', pos', l, l', R, func'' ▸ known, func'' ▸ known', same, related⟩,
        h.waiting, world⟩
  | fail fault =>
      rw [Journey.carryOut, Journey.carryOut, world]
      exact .failed fault _
  | leave x =>
      have waiting := h.waiting
      rw [Journey.carryOut, Journey.carryOut, Journey.leave, Journey.leave, world]
      cases first : j.waiting with
      | nil =>
          rw [first] at waiting
          rw [List.forall₂_nil_left_iff.1 waiting]
          exact .finished x _
      | cons w rest =>
          rw [first] at waiting
          obtain ⟨w', rest', ⟨answer, alike⟩, more, first'⟩ := List.forall₂_cons_left_iff.1 waiting
          rw [first']
          dsimp only
          rw [answer]
          exact .on ⟨alike x, more, rfl⟩
  | call f args answer related =>
      rw [Journey.carryOut] at fine ⊢
      rw [Journey.carryOut]
      cases found : c.listings[f]? with
      | none =>
          rw [found] at fine
          exact absurd rfl fine
      | some callee =>
          obtain ⟨callee', R', found', sim⟩ := simulates.listing f callee found
          rw [found] at fine
          rw [found']
          dsimp only at fine ⊢
          rw [sim.params]
          by_cases fits : args.length ≤ max 1 callee.params
          · rw [if_pos fits, if_pos fits]
            refine .on
              ⟨⟨rfl, rfl, callee, callee', R', found, found', sim, sim.enter args fits⟩, ?_,
              world⟩
            exact .cons ⟨rfl, answered related⟩ h.waiting
          · rw [if_neg fits] at fine
            exact absurd rfl fine
  | perform id args answer related =>
      rw [Journey.carryOut] at fine ⊢
      rw [Journey.carryOut, simulates.procedures, world]
      cases found : c.procedures[id]? with
      | none =>
          rw [found] at fine
          exact absurd rfl fine
      | some procedure =>
          dsimp only
          rcases procedure.perform args j.world with ⟨result, w⟩
          cases result with
          | error fault => exact .failed fault w
          | ok x => exact .on ⟨answered related x, h.waiting, rfl⟩

/-- A plan to go on stays in the function. -/
theorem planned_go {l : Listing} {v w : Visit} {step : Step}
    (h : v.planned c l step = .go w) : w.func = v.func := by
  have land : v.land l = .go w → w.func = v.func := by
    rw [Visit.land]
    cases l.landing v.pos with
    | none => nofun
    | some target =>
        intro same
        cases same
        rfl
  have hand {n : Nat} {plan : List Value → Int16 → Plan}
      (other : ∀ args answer, plan args answer ≠ .go w) :
      v.hand l n plan ≠ .go w := by
    rw [Visit.hand]
    split
    · exact other _ _
    · nofun
  unfold Visit.planned at h
  repeat' split at h
  all_goals first
    | exact land h
    | exact absurd h (hand nofun)
    | (cases h; rfl)
    | cases h

/-- Journeys that are alike take steps that are alike. -/
theorem Alike.step (simulates : c.Simulates c') (h : j.Alike c c' j')
    (fine : j.step c ≠ .astray) : Turn.Alike c c' (j.step c) (j'.step c') := by
  obtain ⟨func, pos, l, l', R, known, known', same, related⟩ := h.visit
  rw [Journey.step, known] at fine ⊢
  rw [Journey.step, func, known', pos]
  dsimp only at fine ⊢
  cases found : l.steps[j.visit.pos]? with
  | none =>
      have beyond := List.getElem?_eq_none_iff.1 found
      rw [List.getElem?_eq_none_iff.2 (same.length ▸ beyond), h.world]
      exact .failed .endOfCode _
  | some step =>
      have inside := (List.getElem?_eq_some_iff.1 found).1
      have found' := List.getElem?_eq_getElem (same.length ▸ inside)
      rw [found] at fine
      rw [found']
      dsimp only at fine ⊢
      rw [act_eq] at fine ⊢
      rw [act_eq, Visit.planned_congr simulates.constants]
      have meant : j.visit.planned c l step ≠ .astray := by
        intro astray
        rw [astray] at fine
        exact fine rfl
      exact h.carryOut simulates known known' same (fun v plan => planned_go plan)
        (same.step j.visit j'.visit step _ func pos related found found' meant) fine

end Journey

end RegisterCode
