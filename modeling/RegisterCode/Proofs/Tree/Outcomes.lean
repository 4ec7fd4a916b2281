import RegisterCode.Proofs.Code.Simulation
import RegisterCode.Proofs.Tree.Evaluation

/-!
What a journey does when it carries out a piece of an evaluation: it gets to a
state that shows the result, or it comes to the same end.
-/

namespace RegisterCode

namespace Journey

/-- The journey stops like an evaluation that found itself in the given world. Until then no
more than `depth` calls are open besides those that were before, and in one that goes too deep
so many are. -/
def Stops (c : Chart) (depth : Nat) (j : Journey) (stop : Stop) (w : World) : Prop :=
  match stop with
  | .returned v => ∃ k, j.Reaches c (j.waiting.length + depth) k ∧ k.waiting = j.waiting ∧
      k.world = w ∧ k.step c = k.leave v
  | .failed fault => ∃ k, j.Reaches c (j.waiting.length + depth) k ∧
      k.step c = .failed fault w
  | .undefined => True
  | .tooDeep => ∃ k, j.Reaches c (j.waiting.length + depth) k ∧
      j.waiting.length + depth ≤ k.waiting.length
  | .malformed => False

/-- The journey gets to a state that shows the result of an evaluation, or it stops
like that does. -/
def Does {α : Type} (c : Chart) (depth : Nat) (j : Journey) (r : EStateM.Result Stop Scene α)
    (Q : α → Scene → Journey → Prop) : Prop :=
  match r with
  | .ok x scene => ∃ k, j.Reaches c (j.waiting.length + depth) k ∧ k.waiting = j.waiting ∧
      Q x scene k
  | .error stop scene => j.Stops c depth stop scene.world

/-- A journey that has just entered a function comes to what calling it comes to. -/
def Answers (c : Chart) (depth : Nat) (j : Journey) (r : Except Stop Value × World) : Prop :=
  match r with
  | (.ok v, w) => j.Stops c depth (.returned v) w
  | (.error (.returned _), _) => False
  | (.error stop, w) => j.Stops c depth stop w

variable {c : Chart} {depth : Nat} {j k : Journey} {α β : Type} {scene : Scene}

/-- A journey that stays in the activation that it is in. -/
theorem Reaches.within (h : j.Reaches c (j.waiting.length + depth) k)
    (same : k.waiting = j.waiting) {l : Journey}
    (h' : k.Reaches c (k.waiting.length + depth) l) :
    j.Reaches c (j.waiting.length + depth) l :=
  h.trans (same ▸ h')

theorem Reaches.here : j.Reaches c (j.waiting.length + depth) j := .refl (Nat.le_add_right _ _)

/-- A single step. -/
theorem Reaches.single (h : j.step c = .on k) (same : k.waiting = j.waiting) :
    j.Reaches c (j.waiting.length + depth) k :=
  .head (Nat.le_add_right _ _) h (.refl (same ▸ Nat.le_add_right _ _))

theorem Finishes.of_reaches {most : Nat} {r : Except Fault Value} {w : World}
    (h : j.Reaches c most k) (finishes : k.Finishes c r w) : j.Finishes c r w := by
  induction h with
  | refl => exact finishes
  | head _ first _ ih => exact .on first (ih finishes)

theorem Stops.of_reaches {stop : Stop} {w : World}
    (h : j.Reaches c (j.waiting.length + depth) k) (same : k.waiting = j.waiting)
    (stops : k.Stops c depth stop w) : j.Stops c depth stop w := by
  cases stop with
  | returned v =>
      obtain ⟨k', there, waiting, world, leaves⟩ := stops
      exact ⟨k', h.within same there, waiting.trans same, world, leaves⟩
  | failed fault =>
      obtain ⟨k', there, fails⟩ := stops
      exact ⟨k', h.within same there, fails⟩
  | undefined => trivial
  | tooDeep =>
      obtain ⟨k', there, le⟩ := stops
      exact ⟨k', h.within same there, same ▸ le⟩
  | malformed => exact stops

namespace Does

variable {Q : α → Scene → Journey → Prop} {Q' : β → Scene → Journey → Prop}

theorem ok {x : α} (h : Q x scene j) : j.Does c depth (.ok x scene) Q :=
  ⟨j, .here, rfl, h⟩

theorem undefined : j.Does c depth (.error .undefined scene : EStateM.Result Stop Scene α) Q :=
  trivial

theorem of_reaches {r : EStateM.Result Stop Scene α}
    (h : j.Reaches c (j.waiting.length + depth) k) (same : k.waiting = j.waiting)
    (does : k.Does c depth r Q) : j.Does c depth r Q := by
  cases r with
  | ok x scene =>
      obtain ⟨k', there, waiting, shows'⟩ := does
      exact ⟨k', h.within same there, waiting.trans same, shows'⟩
  | error stop scene => exact Stops.of_reaches h same does

/-- The journey takes a step, and goes on in the same activation. -/
theorem of_step {r : EStateM.Result Stop Scene α} (h : j.step c = .on k)
    (same : k.waiting = j.waiting) (does : k.Does c depth r Q) : j.Does c depth r Q :=
  of_reaches (.single h same) same does

/-- Doing one thing after another. -/
theorem bind {a : Evaluating α} {f : α → Evaluating β} (h : j.Does c depth (a scene) Q)
    (next : ∀ x scene' k, Q x scene' k → k.waiting = j.waiting →
      k.Does c depth (f x scene') Q') :
    j.Does c depth ((a >>= f) scene) Q' := by
  cases run : a scene with
  | ok x scene' =>
      rw [run] at h
      obtain ⟨k, there, waiting, shows'⟩ := h
      rw [bind_of_ok run]
      exact of_reaches there waiting (next x scene' k shows' waiting)
  | error stop scene' =>
      rw [run] at h
      rw [bind_of_error run]
      exact h

theorem mono {Q'' : α → Scene → Journey → Prop} {r : EStateM.Result Stop Scene α}
    (h : j.Does c depth r Q)
    (weaker : ∀ x scene' k, Q x scene' k → k.waiting = j.waiting → Q'' x scene' k) :
    j.Does c depth r Q'' := by
  cases r with
  | ok x scene' =>
      obtain ⟨k, there, waiting, shows'⟩ := h
      exact ⟨k, there, waiting, weaker x scene' k shows' waiting⟩
  | error stop scene' => exact h

/-- The journey goes on behind what was done. -/
theorem forward {Q'' : α → Scene → Journey → Prop} {r : EStateM.Result Stop Scene α}
    (h : j.Does c depth r Q)
    (onward : ∀ x scene' k, Q x scene' k →
      ∃ k', k.Reaches c (k.waiting.length + depth) k' ∧ k'.waiting = k.waiting ∧
        Q'' x scene' k') :
    j.Does c depth r Q'' := by
  cases r with
  | ok x scene' =>
      obtain ⟨k, there, waiting, shows'⟩ := h
      obtain ⟨k', there', waiting', shows''⟩ := onward x scene' k shows'
      exact ⟨k', there.within waiting there', waiting'.trans waiting, shows''⟩
  | error stop scene' => exact h

/-- What an action throws when it is not to be carried out. -/
theorem failed {fault : Fault} (h : j.step c = .failed fault scene.world) :
    j.Does c depth (.error (.failed fault) scene : EStateM.Result Stop Scene α) Q :=
  ⟨j, .here, h⟩

end Does

end Journey

end RegisterCode
