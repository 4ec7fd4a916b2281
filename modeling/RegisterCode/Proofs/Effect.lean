/-!
Reasoning about actions that change a state and may fail. An action is opened
by what it does to one state (`bind_apply` and the lemmas beside it), or it is
shown to keep to a relation between the state before and the state after,
which is checked part by part.
-/

namespace RegisterCode

variable {ε σ α β : Type}

section Apply

variable (s : σ)

@[simp] theorem pure_apply (x : α) :
    (pure x : EStateM ε σ α) s = .ok x s := rfl

@[simp] theorem throw_apply (e : ε) :
    (throw e : EStateM ε σ α) s = .error e s := rfl

@[simp] theorem get_apply : (get : EStateM ε σ σ) s = .ok s s := rfl

@[simp] theorem modify_apply (f : σ → σ) :
    (modify f : EStateM ε σ PUnit) s = .ok ⟨⟩ (f s) := rfl

@[simp] theorem modifyGet_apply (f : σ → α × σ) :
    (modifyGet f : EStateM ε σ α) s = .ok (f s).1 (f s).2 := rfl

theorem bind_apply (a : EStateM ε σ α) (f : α → EStateM ε σ β) :
    (a >>= f) s = match a s with
      | .ok x t => f x t
      | .error e t => .error e t := rfl

theorem map_apply (f : α → β) (a : EStateM ε σ α) :
    (f <$> a) s = match a s with
      | .ok x t => .ok (f x) t
      | .error e t => .error e t := rfl

theorem bind_of_ok {a : EStateM ε σ α} {f : α → EStateM ε σ β} {s t : σ} {x : α}
    (h : a s = .ok x t) : (a >>= f) s = f x t := by
  rw [bind_apply, h]

theorem bind_of_error {a : EStateM ε σ α} {f : α → EStateM ε σ β} {s t : σ} {e : ε}
    (h : a s = .error e t) : (a >>= f) s = .error e t := by
  rw [bind_apply, h]

theorem bind_eq_ok_iff {a : EStateM ε σ α} {f : α → EStateM ε σ β} {s t : σ} {y : β} :
    (a >>= f) s = .ok y t ↔ ∃ x u, a s = .ok x u ∧ f x u = .ok y t := by
  rw [bind_apply]
  cases a s with
  | ok x u =>
      simp only [EStateM.Result.ok.injEq]
      exact ⟨fun h => ⟨x, u, ⟨rfl, rfl⟩, h⟩, fun ⟨_, _, ⟨hx, hu⟩, h⟩ => hx ▸ hu ▸ h⟩
  | error e u => simp

theorem bind_eq_error_iff {a : EStateM ε σ α} {f : α → EStateM ε σ β} {s t : σ} {e : ε} :
    (a >>= f) s = .error e t ↔
      a s = .error e t ∨ ∃ x u, a s = .ok x u ∧ f x u = .error e t := by
  rw [bind_apply]
  cases a s with
  | ok x u =>
      simp only [EStateM.Result.ok.injEq, reduceCtorEq, false_or]
      exact ⟨fun h => ⟨x, u, ⟨rfl, rfl⟩, h⟩, fun ⟨_, _, ⟨hx, hu⟩, h⟩ => hx ▸ hu ▸ h⟩
  | error e u => simp

end Apply

/-- The state that an action leaves behind, also when it fails. -/
def leaves (a : EStateM ε σ α) (s : σ) : σ :=
  match a s with
  | .ok _ t | .error _ t => t

theorem leaves_of_ok {a : EStateM ε σ α} {s t : σ} {x : α} (h : a s = .ok x t) :
    leaves a s = t := by
  rw [leaves, h]

theorem leaves_of_error {a : EStateM ε σ α} {s t : σ} {e : ε} (h : a s = .error e t) :
    leaves a s = t := by
  rw [leaves, h]

/-- Whatever the action does, the relation holds between the state before and
the state after. -/
def KeepsTo (R : σ → σ → Prop) (a : EStateM ε σ α) : Prop :=
  ∀ s, R s (leaves a s)

/-- A relation that can be followed along a sequence of actions. -/
class Composes (R : σ → σ → Prop) : Prop where
  refl : ∀ s, R s s
  trans : ∀ {s t u}, R s t → R t u → R s u

namespace KeepsTo

variable {R : σ → σ → Prop}

theorem ok {a : EStateM ε σ α} (h : KeepsTo R a) {s t : σ} {x : α}
    (run : a s = .ok x t) : R s t :=
  leaves_of_ok run ▸ h s

theorem error {a : EStateM ε σ α} (h : KeepsTo R a) {s t : σ} {e : ε}
    (run : a s = .error e t) : R s t :=
  leaves_of_error run ▸ h s

theorem modify {f : σ → σ} (h : ∀ s, R s (f s)) :
    KeepsTo R (modify f : EStateM ε σ PUnit) :=
  h

/-- Reading the state first: what follows is looked at in that very state. -/
theorem get_bind {f : σ → EStateM ε σ β} (h : ∀ s, R s (leaves (f s) s)) :
    KeepsTo R (MonadState.get >>= f) :=
  h

/-- What follows keeps to the relation wherever it is done. -/
theorem get_then {f : σ → EStateM ε σ β} (h : ∀ s, KeepsTo R (f s)) :
    KeepsTo R (MonadState.get >>= f) :=
  fun s => h s s

variable [Composes R]

theorem pure (x : α) : KeepsTo R (pure x : EStateM ε σ α) :=
  Composes.refl

theorem throw (e : ε) : KeepsTo R (throw e : EStateM ε σ α) :=
  Composes.refl

theorem get : KeepsTo R (get : EStateM ε σ σ) :=
  Composes.refl

theorem bind {a : EStateM ε σ α} {f : α → EStateM ε σ β} (ha : KeepsTo R a)
    (hf : ∀ x, KeepsTo R (f x)) : KeepsTo R (a >>= f) := by
  intro s
  cases h : a s with
  | ok x t =>
      rw [leaves, bind_of_ok h]
      exact Composes.trans (ha.ok h) (hf x t)
  | error e t =>
      rw [leaves, bind_of_error h]
      exact ha.error h

end KeepsTo

/-! ### Failing -/

/-- Whatever the state, the action fails for no other reasons than those. -/
def FailsOnly (P : ε → Prop) (a : EStateM ε σ α) : Prop :=
  ∀ s e t, a s = .error e t → P e

namespace FailsOnly

variable {P : ε → Prop}

theorem pure (x : α) : FailsOnly P (pure x : EStateM ε σ α) :=
  fun _ _ _ failed => nomatch failed

theorem throw {e : ε} (h : P e) : FailsOnly P (throw e : EStateM ε σ α) := by
  intro s e' t failed
  cases failed
  exact h

theorem get : FailsOnly P (get : EStateM ε σ σ) :=
  fun _ _ _ failed => nomatch failed

theorem modify (f : σ → σ) : FailsOnly P (modify f : EStateM ε σ PUnit) :=
  fun _ _ _ failed => nomatch failed

theorem bind {a : EStateM ε σ α} {f : α → EStateM ε σ β} (ha : FailsOnly P a)
    (hf : ∀ x, FailsOnly P (f x)) : FailsOnly P (a >>= f) := by
  intro s e t failed
  rcases bind_eq_error_iff.1 failed with failed | ⟨x, u, -, failed⟩
  · exact ha s e t failed
  · exact hf x u e t failed

/-- What would follow a failure does not matter. -/
theorem throw_bind {e : ε} {f : α → EStateM ε σ β} (h : P e) :
    FailsOnly P (MonadExcept.throw e >>= f) := by
  intro s e' t failed
  rw [bind_of_error (throw_apply s e)] at failed
  cases failed
  exact h

theorem forM {f : α → EStateM ε σ Unit} {xs : List α} (h : ∀ x, FailsOnly P (f x)) :
    FailsOnly P (xs.forM f) := by
  induction xs with
  | nil => exact pure ()
  | cons x xs ih => exact (h x).bind fun _ => ih

end FailsOnly

/-- In a state like that, a failure leaves one that is related to it. What the action does when it
succeeds does not matter. -/
def FailsTo (P : σ → Prop) (R : σ → σ → Prop) (a : EStateM ε σ α) : Prop :=
  ∀ s e t, P s → a s = .error e t → R s t

namespace FailsTo

variable {P : σ → Prop} {R : σ → σ → Prop} {a : EStateM ε σ α} {f : α → EStateM ε σ β}

theorem of_keeps (h : KeepsTo R a) : FailsTo P R a :=
  fun _ _ _ _ failed => h.error failed

theorem of_never (never : FailsOnly (fun _ => False) a) : FailsTo P R a :=
  fun s e t _ failed => (never s e t failed).elim

/-- Where the first action succeeds it makes sure of something, on which the second can rely, and
what is related to its state is related to the state before. -/
theorem bind_of {Q : α → σ → Prop} (ha : FailsTo P R a)
    (goes : ∀ s x t, P s → a s = .ok x t → Q x t ∧ ∀ u, R t u → R s u)
    (hf : ∀ x, FailsTo (Q x) R (f x)) : FailsTo P R (a >>= f) := by
  intro s e t holds failed
  rcases bind_eq_error_iff.1 failed with first | ⟨x, u, ran, second⟩
  · exact ha s e t holds first
  · obtain ⟨sure, back⟩ := goes s x u holds ran
    exact back t (hf x u e t sure second)

/-- After the last action that can fail, everything may change. -/
theorem last (ha : FailsTo P R a) (never : ∀ x, FailsOnly (fun _ => False) (f x)) :
    FailsTo P R (a >>= f) := by
  intro s e t holds failed
  rcases bind_eq_error_iff.1 failed with first | ⟨x, u, -, second⟩
  · exact ha s e t holds first
  · exact (never x u e t second).elim

end FailsTo

/-! ### Loops -/

section

variable {α β σ ε : Type}

/-- A loop that never stops early. -/
theorem forIn_eq_forM (xs : List α) (f : α → EStateM ε σ Unit) :
    (forIn xs PUnit.unit (fun x _ => f x >>= fun _ => pure (ForInStep.yield PUnit.unit)) :
      EStateM ε σ PUnit) = xs.forM f := by
  induction xs with
  | nil => rfl
  | cons x xs ih =>
      rw [List.forIn_cons, bind_assoc]
      simp only [pure_bind]
      rw [ih]
      rfl

theorem forM_cons (x : α) (xs : List α) (f : α → EStateM ε σ Unit) :
    (x :: xs).forM f = f x >>= fun _ => xs.forM f := rfl

theorem forM_append (xs ys : List α) (f : α → EStateM ε σ Unit) :
    (xs ++ ys).forM f = xs.forM f >>= fun _ => ys.forM f := by
  induction xs with
  | nil => rfl
  | cons x xs ih => rw [List.cons_append, forM_cons, forM_cons, ih, bind_assoc]

theorem forM_flatMap (xs : List α) (g : α → List β) (f : β → EStateM ε σ Unit) :
    (xs.flatMap g).forM f = xs.forM fun x => (g x).forM f := by
  induction xs with
  | nil => rfl
  | cons x xs ih => rw [List.flatMap_cons, forM_append, forM_cons, ih]

theorem forM_map (xs : List α) (g : α → β) (f : β → EStateM ε σ Unit) :
    (xs.map g).forM f = xs.forM fun x => f (g x) := by
  induction xs with
  | nil => rfl
  | cons x xs ih => rw [List.map_cons, forM_cons, forM_cons, ih]

end

end RegisterCode
